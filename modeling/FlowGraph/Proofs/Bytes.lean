/-!
# The order of texts by their bytes

Texts are ordered by their characters and stored as bytes.  Comparing the bytes gives the same order
(`bytesOf_lt`).

A character is a first byte, whose mark tells how many bytes follow, and six bits in each of these
(`Bytes.marked`).  More bytes have a larger mark, and with equally many the bits come in order.  So
the bytes of two different characters part somewhere, and there the smaller character has the smaller
byte (`Bytes.utf8EncodeChar_parts`).  What comes later in the texts does not matter.
-/

namespace FlowGraph

/-- The bytes of a text. -/
def bytesOf (s : String) : List UInt8 := s.toUTF8.data.toList

namespace Bytes

/-! ## Where lists part -/

/-- Both lists have a byte where they first differ, and there the first list has the smaller one. -/
def PartsBelow : List UInt8 → List UInt8 → Prop
  | x :: xs, y :: ys => x < y ∨ x = y ∧ PartsBelow xs ys
  | _, _ => False

namespace PartsBelow

variable {xs ys : List UInt8}

theorem append (parts : PartsBelow xs ys) (ps qs : List UInt8) :
    PartsBelow (xs ++ ps) (ys ++ qs) := by
  fun_induction PartsBelow xs ys with
  | case1 x xs y ys ih => exact parts.imp_right fun ⟨same, later⟩ => ⟨same, ih later⟩
  | case2 => cases parts

theorem append_left (ps : List UInt8) (parts : PartsBelow xs ys) :
    PartsBelow (ps ++ xs) (ps ++ ys) := by
  induction ps with
  | nil => exact parts
  | cons p ps ih => exact .inr ⟨rfl, ih⟩

theorem lt (parts : PartsBelow xs ys) : xs < ys := by
  fun_induction PartsBelow xs ys with
  | case1 x xs y ys ih =>
      rw [List.cons_lt_cons_iff]
      exact parts.imp_right fun ⟨same, later⟩ => ⟨same, ih later⟩
  | case2 => cases parts

end PartsBelow

/-! ## The bytes of a character -/

/-- The number of bytes after the first byte of a character. -/
def followers (n : Nat) : Nat :=
  if n ≤ 0x7f then 0 else if n ≤ 0x7ff then 1 else if n ≤ 0xffff then 2 else 3

/-- The mark of a first byte with some bytes after it. -/
def markFor : Nat → Nat
  | 0 => 0
  | 1 => 0xc0
  | 2 => 0xe0
  | _ => 0xf0

/-- The bits of a number that are left for the first byte if some more bytes follow. -/
def leading : Nat → Nat → Nat
  | 0, n => n
  | more + 1, n => leading more (n / 64)

/-- A number in bytes: its leading bits with a mark, and six bits in each of some more bytes. -/
def marked (mark : Nat) : Nat → Nat → List UInt8
  | 0, n => [.ofNat (n + mark)]
  | more + 1, n => marked mark more (n / 64) ++ [.ofNat (n % 64 + 0x80)]

/-- The first byte of a character. -/
def firstByte (n : Nat) : Nat := leading (followers n) n + markFor (followers n)

theorem toNat_lt (c : Char) : c.toNat < 0x110000 := by
  rcases c.valid with low | high
  · exact Nat.lt_trans low (by decide)
  · exact high.2

theorem utf8EncodeChar_eq (c : Char) : String.utf8EncodeChar c =
    marked (markFor (followers c.toNat)) (followers c.toNat) c.toNat := by
  have bound := toNat_lt c
  simp only [String.utf8EncodeChar, Char.toNat_val, followers]
  split
  next => rfl
  next =>
    split
    next =>
      have first : c.toNat / 64 % 32 = c.toNat / 64 := by omega
      simp [marked, markFor, first]
    next =>
      split
      next =>
        have first : c.toNat / 4096 % 16 = c.toNat / 64 / 64 := by omega
        simp [marked, markFor, first]
      next =>
        have first : c.toNat / 262144 % 8 = c.toNat / 64 / 64 / 64 := by omega
        have second : c.toNat / 4096 = c.toNat / 64 / 64 := by omega
        simp [marked, markFor, first, second]

theorem firstByte_eq (n : Nat) : firstByte n =
    if n ≤ 0x7f then n
    else if n ≤ 0x7ff then n / 64 + 0xc0
    else if n ≤ 0xffff then n / 64 / 64 + 0xe0
    else n / 64 / 64 / 64 + 0xf0 := by
  unfold firstByte followers
  split
  next => rfl
  next =>
    split
    next => rfl
    next => split <;> rfl

theorem firstByte_lt {n : Nat} (bound : n < 0x110000) : firstByte n < 256 := by
  rw [firstByte_eq]
  grind

/-- Of two characters with a different number of bytes the larger has the larger first byte. -/
theorem firstByte_lt_firstByte {m n : Nat} (lt : m < n) (differ : followers m ≠ followers n) :
    firstByte m < firstByte n := by
  rw [firstByte_eq, firstByte_eq]
  unfold followers at differ
  grind

theorem ofNat_lt_ofNat {m n : Nat} (lt : m < n) (bound : n < 256) :
    UInt8.ofNat m < UInt8.ofNat n := by
  rw [UInt8.lt_iff_toNat_lt, UInt8.toNat_ofNat_of_lt' (Nat.lt_trans lt bound),
    UInt8.toNat_ofNat_of_lt' bound]
  exact lt

theorem marked_eq_cons (mark more n : Nat) :
    ∃ rest, marked mark more n = .ofNat (leading more n + mark) :: rest := by
  induction more generalizing n with
  | zero => exact ⟨[], rfl⟩
  | succ more ih =>
      obtain ⟨rest, first⟩ := ih (n / 64)
      exact ⟨rest ++ [.ofNat (n % 64 + 0x80)], by rw [marked, first]; rfl⟩

/-- In one number of bytes, the bytes of a smaller number part below those of a larger one. -/
theorem marked_parts {mark more m n : Nat} (lt : m < n) (bound : leading more n + mark < 256) :
    PartsBelow (marked mark more m) (marked mark more n) := by
  induction more generalizing m n with
  | zero => exact .inl (ofNat_lt_ofNat (Nat.add_lt_add_right lt mark) bound)
  | succ more ih =>
      rcases Nat.lt_or_eq_of_le (Nat.div_le_div_right (c := 64) (Nat.le_of_lt lt)) with less | same
      · exact (ih less bound).append _ _
      · -- only the last six bits differ
        rw [marked, marked, same]
        exact .append_left _ (.inl (ofNat_lt_ofNat (by omega) (by omega)))

theorem utf8EncodeChar_parts {c d : Char} (lt : c < d) :
    PartsBelow (String.utf8EncodeChar c) (String.utf8EncodeChar d) := by
  have less : c.toNat < d.toNat := lt
  have bound : firstByte d.toNat < 256 := firstByte_lt (toNat_lt d)
  rw [utf8EncodeChar_eq, utf8EncodeChar_eq]
  by_cases same : followers c.toNat = followers d.toNat
  · rw [same]
    exact marked_parts less bound
  · obtain ⟨xs, first⟩ := marked_eq_cons (markFor (followers c.toNat)) (followers c.toNat) c.toNat
    obtain ⟨ys, second⟩ := marked_eq_cons (markFor (followers d.toNat)) (followers d.toNat) d.toNat
    rw [first, second]
    exact .inl (ofNat_lt_ofNat (firstByte_lt_firstByte less same) bound)

end Bytes

/-! ## The bytes of a text -/

theorem bytesOf_eq (s : String) : bytesOf s = s.toList.flatMap String.utf8EncodeChar := by
  have bytes : s.toByteArray = s.toList.utf8Encode := by
    rw [← String.toByteArray_ofList, String.ofList_toList]
  rw [bytesOf, String.toUTF8_eq_toByteArray, bytes, List.utf8Encode, List.data_toByteArray]

theorem flatMap_utf8EncodeChar_lt {cs ds : List Char} (lt : cs < ds) :
    cs.flatMap String.utf8EncodeChar < ds.flatMap String.utf8EncodeChar := by
  induction cs generalizing ds with
  | nil =>
      cases ds with
      | nil => exact absurd lt (List.not_lt_nil _)
      | cons d ds =>
          have nonempty : String.utf8EncodeChar d ≠ [] := String.utf8EncodeChar_ne_nil
          obtain ⟨x, xs, bytes⟩ := List.exists_cons_of_ne_nil nonempty
          rw [List.flatMap_nil, List.flatMap_cons, bytes]
          exact List.nil_lt_cons _ _
  | cons c cs ih =>
      cases ds with
      | nil => exact absurd lt (List.not_lt_nil _)
      | cons d ds =>
          rw [List.flatMap_cons, List.flatMap_cons]
          rcases List.cons_lt_cons_iff.mp lt with less | ⟨rfl, later⟩
          · exact ((Bytes.utf8EncodeChar_parts less).append _ _).lt
          · exact List.append_left_lt (ih later)

/-- Texts in order have bytes in order. -/
theorem bytesOf_lt {s t : String} (lt : s < t) : bytesOf s < bytesOf t := by
  rw [bytesOf_eq, bytesOf_eq]
  exact flatMap_utf8EncodeChar_lt lt

end FlowGraph

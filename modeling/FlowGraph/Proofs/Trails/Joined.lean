import FlowGraph.Proofs.Trails.Termination

/-!
# What a block does to joined trails

A state that was joined from others goes through a block.  The question is what comes out, compared
with what comes out of the others.

A larger state gives a larger state (`Includes.through`).  The one exception is the source.  It gets
its own trail only where it is clean, so a state with more tainted values may give it fewer trails.

A state that is made of others gives a state that is made of what these give (`MadeOf.through`).
The one exception is a store.  A store of a tainted value keeps the trails that the slot had before.
If the value is tainted in one part and the slot in another, the joined state keeps trails that no
part keeps.  So the parts have to agree on the values of stores (`AgreeAt`).
-/

namespace FlowGraph

namespace Trails

variable {settings : Settings} {source label : String} {f : Procedure} {b : BlockId} {id : InstId}
  {s s' t t' : Trails}

/-! ## Larger states -/

/-- A state has all tainted values and all trails of another. -/
structure Includes (s t : Trails) : Prop where
  values : ∀ v ∈ t, v ∈ s
  trails : ∀ v p, p ∈ t.textsOf v → p ∈ s.textsOf v

theorem analysis_raises (settings : Settings) :
    (analysis settings).Raises fun t s => Includes s t where
  refl _ := ⟨fun _ member => member, fun _ _ member => member⟩
  trans first second :=
    ⟨fun v member => second.values v (first.values v member),
      fun v p member => second.trails v p (first.trails v p member)⟩
  left _ _ := ⟨fun _ member => mem_join_iff.mpr (.inl member),
    fun _ _ member => mem_textsOf_join_iff.mpr (.inl member)⟩
  right _ _ := ⟨fun _ member => mem_join_iff.mpr (.inr member),
    fun _ _ member => mem_textsOf_join_iff.mpr (.inr member)⟩

theorem Includes.extend (includes : Includes s t) : Includes (s.extend label) (t.extend label) where
  values v member := mem_extend_iff.mpr (includes.values v (mem_extend_iff.mp member))
  trails v p member := by
    rw [mem_textsOf_extend_iff] at member ⊢
    obtain ⟨q, before, longer⟩ := member
    exact ⟨q, includes.trails v q before, longer⟩

theorem Keeps.mono {i : Instruction} {v : InstId} {t u : TaintSet} (subset : ∀ v ∈ t, v ∈ u)
    (keeps : Keeps source f id i t v) : Keeps source f id i u v := by
  cases op : i.op with
  | store value slot =>
      simp only [Keeps, op] at keeps ⊢
      intro same
      refine (keeps same).imp_right ?_
      rintro ⟨r, isValue, marked⟩
      exact ⟨r, isValue, marked.mono subset⟩
  | _ => simp only [Keeps, op]

/-- What an instruction makes of a larger state is larger, if the source is clean where it is
declared. -/
theorem Includes.step (includes : Includes s t)
    (clean : f.valueName id = .ok source → id ∉ s) (stepped : step source f label s id = .ok s')
    (stepped' : Trails.step source f label t id = .ok t') : Includes s' t' where
  values := by
    simp only [← mem_tainted]
    refine TaintSet.step_mono ?_ (tainted_step_of_ok stepped') (tainted_step_of_ok stepped)
    simpa only [mem_tainted] using includes.values
  trails v p member := by
    obtain ⟨i, found, members⟩ := mem_step_iff stepped
    obtain ⟨i', found', members'⟩ := mem_step_iff stepped'
    rw [found] at found'
    cases found'
    have marked : ∀ {w}, Marked source label id i t w p → Marked source label id i s w p := by
      rintro w (before | ⟨rfl, named, -, rfl⟩)
      · exact .inl (includes.trails w p before)
      · exact .inr ⟨rfl, named, clean (bind_eq_ok_iff.mpr ⟨i, found, congrArg _ named⟩), rfl⟩
    rw [members]
    rcases (members' v p).mp member with ⟨w, copies, before⟩ | ⟨keeps, before⟩
    · exact .inl ⟨w, copies, marked before⟩
    · refine .inr ⟨keeps.mono ?_, marked before⟩
      simpa only [mem_tainted] using includes.values

theorem Includes.steps {ids : List InstId} (includes : Includes s t)
    (clean : ∀ done id rest s₁, ids = done ++ id :: rest →
      done.foldlM (Trails.step source f label) s = .ok s₁ → f.valueName id = .ok source → id ∉ s₁)
    (stepped : ids.foldlM (Trails.step source f label) s = .ok s')
    (stepped' : ids.foldlM (Trails.step source f label) t = .ok t') : Includes s' t' := by
  induction ids generalizing s t with
  | nil =>
      cases stepped
      cases stepped'
      exact includes
  | cons id rest ih =>
      rw [List.foldlM_cons, bind_eq_ok_iff] at stepped stepped'
      obtain ⟨s₁, first, stepped⟩ := stepped
      obtain ⟨t₁, first', stepped'⟩ := stepped'
      refine ih (includes.step (clean [] id rest s rfl rfl) first first') ?_ stepped stepped'
      intro done later rest' s₂ split folded
      exact clean (id :: done) later rest' s₂ (by rw [split]; rfl) (foldlM_cons_eq_ok first folded)

theorem Includes.eraseRegisters (includes : Includes s t)
    (erased : Trails.eraseRegisters f s = .ok s') (erased' : Trails.eraseRegisters f t = .ok t') :
    Includes s' t' where
  values v member := by
    rw [mem_eraseRegisters_iff erased'] at member
    rw [mem_eraseRegisters_iff erased]
    exact ⟨includes.values v member.1, member.2⟩
  trails v p member := by
    rw [mem_textsOf_eraseRegisters_iff erased'] at member
    rw [mem_textsOf_eraseRegisters_iff erased]
    exact ⟨includes.trails v p member.1, member.2⟩

/-- What a block makes of a larger state is larger, if the source is clean where the block declares
it. -/
theorem Includes.through (includes : Includes s t)
    (clean : ∀ done id rest u, f.instsOf b = .ok (done ++ id :: rest) →
      done.foldlM (TaintSet.step source f) s.tainted = .ok u → f.valueName id = .ok source → id ∉ u)
    (carried : Trails.through source f b s = .ok s')
    (carried' : Trails.through source f b t = .ok t') : Includes s' t' := by
  obtain ⟨label, ids, s₁, labelled, found, stepped, erased⟩ := through_eq_ok_iff.mp carried
  obtain ⟨label', ids', t₁, labelled', found', stepped', erased'⟩ := through_eq_ok_iff.mp carried'
  rw [labelled] at labelled'
  rw [found] at found'
  cases labelled'
  cases found'
  refine (includes.extend.steps ?_ stepped stepped').eraseRegisters erased erased'
  intro done id rest u split folded named
  rw [← mem_tainted]
  exact clean done id rest u.tainted (by rw [found, split]) (tainted_extend_steps_of_ok folded)
    named

/-! ## States made of others -/

/-- A state is made of some states: each of its tainted values and each of its trails is in one of
them, and one of them taints no other values. -/
structure MadeOf (parts : Trails → Prop) (s : Trails) : Prop where
  values : ∀ v ∈ s, ∃ u, parts u ∧ v ∈ u
  trails : ∀ v p, p ∈ s.textsOf v → ∃ u, parts u ∧ p ∈ u.textsOf v
  least : ∃ u, parts u ∧ ∀ v ∈ u, v ∈ s

/-- What comes out of some states. -/
def Outcomes (next : Trails → Except Fault Trails) (parts : Trails → Prop) (u' : Trails) : Prop :=
  ∃ u, parts u ∧ next u = .ok u'

variable {parts parts' : Trails → Prop}

theorem MadeOf.of_parts (made : MadeOf parts s) (more : ∀ u, parts u → parts' u) :
    MadeOf parts' s where
  values v member := (made.values v member).imp fun u => And.imp_left (more u)
  trails v p member := (made.trails v p member).imp fun u => And.imp_left (more u)
  least := made.least.imp fun u => And.imp_left (more u)

theorem MadeOf.join (left : MadeOf parts s) (right : MadeOf parts t) :
    MadeOf parts (Trails.join s t) where
  values v member := (mem_join_iff.mp member).elim (left.values v) (right.values v)
  trails v p member := (mem_textsOf_join_iff.mp member).elim (left.trails v p) (right.trails v p)
  least := by
    obtain ⟨u, isPart, fewer⟩ := left.least
    exact ⟨u, isPart, fun v member => mem_join_iff.mpr (.inl (fewer v member))⟩

theorem MadeOf.extend (made : MadeOf parts s) :
    MadeOf (fun u' => ∃ u, parts u ∧ u.extend label = u') (s.extend label) where
  values v member := by
    obtain ⟨u, isPart, there⟩ := made.values v (mem_extend_iff.mp member)
    exact ⟨_, ⟨u, isPart, rfl⟩, mem_extend_iff.mpr there⟩
  trails v p member := by
    obtain ⟨q, before, longer⟩ := mem_textsOf_extend_iff.mp member
    obtain ⟨u, isPart, there⟩ := made.trails v q before
    exact ⟨_, ⟨u, isPart, rfl⟩, mem_textsOf_extend_iff.mpr ⟨q, there, longer⟩⟩
  least := by
    obtain ⟨u, isPart, fewer⟩ := made.least
    refine ⟨_, ⟨u, isPart, rfl⟩, fun v member => ?_⟩
    exact mem_extend_iff.mpr (fewer v (mem_extend_iff.mp member))

/-- Two states agree on the value of a store: where the slot is tainted in the first, the value is
tainted in the first if it is in the second.  The source is left out, since it is never cleared. -/
def AgreeAt (source : String) (f : Procedure) (id : InstId) (t u : TaintSet) : Prop :=
  ∀ r slot, f.op id = .ok (.store (.value r) slot) → f.valueName slot ≠ .ok source →
    slot ∈ t → r ∈ u → r ∈ t

/-- A part with a trail keeps it if the whole does.  This is where the parts have to agree: the
value of a store may be tainted in another part. -/
theorem MadeOf.keeps (made : MadeOf parts s)
    (agree : ∀ u u', parts u → parts u' → AgreeAt source f id u.tainted u'.tainted) {u : Trails}
    {i : Instruction} {v : InstId} {p : String} (isPart : parts u) (found : f.inst id = .ok i)
    (marked : Marked source label id i u v p) (keeps : Keeps source f id i s.tainted v) :
    Keeps source f id i u.tainted v := by
  cases op : i.op with
  | store value slot =>
      simp only [Keeps, op] at keeps ⊢
      rintro rfl
      rcases keeps rfl with isSource | ⟨r, isValue, tainted | here⟩
      · exact .inl isSource
      · rcases marked with before | ⟨rfl, named, -⟩
        · by_cases isSource : f.valueName v = .ok source
          · exact .inl isSource
          · obtain ⟨u', isPart', there⟩ := made.values r (mem_tainted.mp tainted)
            have isStore : f.op id = .ok (.store (.value r) v) :=
              bind_eq_ok_iff.mpr ⟨i, found, by rw [op, isValue]; rfl⟩
            have slot : v ∈ u.tainted := mem_tainted.mpr (mem_of_mem_textsOf before)
            exact .inr ⟨r, isValue, .inl
              (agree u u' isPart isPart' r v isStore isSource slot (mem_tainted.mpr there))⟩
        · exact .inl (bind_eq_ok_iff.mpr ⟨i, found, congrArg _ named⟩)
      · exact .inr ⟨r, isValue, .inr here⟩
  | _ => simp only [Keeps, op]

/-- An instruction carries a state to one that is made of what it makes of the parts, if these agree
on the value of a store. -/
theorem MadeOf.step (made : MadeOf parts s)
    (returns : ∀ u, parts u → ∃ u', Trails.step source f label u id = .ok u')
    (agree : ∀ u u', parts u → parts u' → AgreeAt source f id u.tainted u'.tainted)
    (stepped : Trails.step source f label s id = .ok s') :
    MadeOf (Outcomes (Trails.step source f label · id) parts) s' where
  values v member := by
    rw [← mem_tainted] at member
    rcases TaintSet.step_cause (tainted_step_of_ok stepped) member with always | ⟨c, cause, because⟩
    · obtain ⟨u, isPart, -⟩ := made.least
      obtain ⟨u', stepped'⟩ := returns u isPart
      exact ⟨u', ⟨u, isPart, stepped'⟩,
        mem_tainted.mp (always _ _ (tainted_step_of_ok stepped'))⟩
    · obtain ⟨u, isPart, there⟩ := made.values c (mem_tainted.mp cause)
      obtain ⟨u', stepped'⟩ := returns u isPart
      exact ⟨u', ⟨u, isPart, stepped'⟩,
        mem_tainted.mp (because _ _ (mem_tainted.mpr there) (tainted_step_of_ok stepped'))⟩
  trails v p member := by
    obtain ⟨i, found, members⟩ := mem_step_iff stepped
    -- a part that has what is marked before has the trail after, if it keeps what the state keeps
    have onward : ∀ {u}, parts u → ((∃ w, Copies id i w v ∧ Marked source label id i u w p) ∨
        Keeps source f id i u.tainted v ∧ Marked source label id i u v p) →
        ∃ u', Outcomes (Trails.step source f label · id) parts u' ∧ p ∈ u'.textsOf v := by
      intro u isPart carried
      obtain ⟨u', stepped'⟩ := returns u isPart
      obtain ⟨i', found', members'⟩ := mem_step_iff stepped'
      rw [found] at found'
      cases found'
      exact ⟨u', ⟨u, isPart, stepped'⟩, (members' v p).mpr carried⟩
    have marked : ∀ {w}, Marked source label id i s w p →
        ∃ u, parts u ∧ Marked source label id i u w p := by
      rintro w (before | ⟨rfl, named, missing, rfl⟩)
      · obtain ⟨u, isPart, there⟩ := made.trails w p before
        exact ⟨u, isPart, .inl there⟩
      · obtain ⟨u, isPart, fewer⟩ := made.least
        exact ⟨u, isPart, .inr ⟨rfl, named, fun old => missing (fewer w old), rfl⟩⟩
    rcases (members v p).mp member with ⟨w, copies, before⟩ | ⟨keeps, before⟩
    · obtain ⟨u, isPart, there⟩ := marked before
      exact onward isPart (.inl ⟨w, copies, there⟩)
    · obtain ⟨u, isPart, there⟩ := marked before
      exact onward isPart (.inr ⟨made.keeps agree isPart found there keeps, there⟩)
  least := by
    obtain ⟨u, isPart, fewer⟩ := made.least
    obtain ⟨u', stepped'⟩ := returns u isPart
    refine ⟨u', ⟨u, isPart, stepped'⟩, ?_⟩
    simp only [← mem_tainted] at fewer ⊢
    exact TaintSet.step_mono fewer (tainted_step_of_ok stepped') (tainted_step_of_ok stepped)

theorem step_returns (closed : f.Closed) (here : id < f.numInsts) (inside : t.tainted.Inside f) :
    ∃ t', step source f label t id = .ok t' ∧ t'.tainted.Inside f := by
  obtain ⟨u, stepped, inside'⟩ : ∃ u, TaintSet.step source f t.tainted id = .ok u ∧ u.Inside f :=
    TaintSet.step_returns closed here inside
  rw [tainted_step label, map_eq_ok_iff] at stepped
  obtain ⟨t', stepped, rfl⟩ := stepped
  exact ⟨t', stepped, inside'⟩

/-- Some instructions carry a state to one that is made of what they make of the parts. -/
theorem MadeOf.steps (closed : f.Closed) {ids : List InstId} (there : ∀ id ∈ ids, id < f.numInsts)
    (made : MadeOf parts s) (inside : ∀ u, parts u → u.tainted.Inside f)
    (agree : ∀ done id rest u u' t t', ids = done ++ id :: rest → parts u → parts u' →
      done.foldlM (Trails.step source f label) u = .ok t →
      done.foldlM (Trails.step source f label) u' = .ok t' →
        AgreeAt source f id t.tainted t'.tainted)
    (stepped : ids.foldlM (Trails.step source f label) s = .ok s') :
    MadeOf (Outcomes (ids.foldlM (Trails.step source f label)) parts) s' := by
  induction ids generalizing parts s with
  | nil =>
      cases stepped
      exact made.of_parts fun u isPart => ⟨u, isPart, rfl⟩
  | cons id rest ih =>
      rw [List.foldlM_cons, bind_eq_ok_iff] at stepped
      obtain ⟨s₁, first, stepped⟩ := stepped
      have returns : ∀ u, parts u → ∃ u', Trails.step source f label u id = .ok u' ∧
          u'.tainted.Inside f := fun u isPart =>
        step_returns closed (there id List.mem_cons_self) (inside u isPart)
      have made₁ := made.step (fun u isPart => (returns u isPart).imp fun _ => And.left)
        (fun u u' left right => agree [] id rest u u' u u' rfl left right rfl rfl) first
      refine (ih (fun id member => there id (List.mem_cons_of_mem _ member)) made₁ ?_ ?_
        stepped).of_parts ?_
      · rintro u₁ ⟨u, isPart, first'⟩
        obtain ⟨u₂, first'', inside'⟩ := returns u isPart
        cases first'.symm.trans first''
        exact inside'
      · rintro done later rest' u₁ u₁' t t' split ⟨u, isPart, first'⟩ ⟨u', isPart', first''⟩ folded
          folded'
        exact agree (id :: done) later rest' u u' t t' (by rw [split]; rfl) isPart isPart'
          (foldlM_cons_eq_ok first' folded) (foldlM_cons_eq_ok first'' folded')
      · rintro u' ⟨u₁, ⟨u, isPart, first'⟩, folded⟩
        exact ⟨u, isPart, foldlM_cons_eq_ok first' folded⟩

theorem eraseRegisters_returns (inside : t.tainted.Inside f) :
    ∃ t', eraseRegisters f t = .ok t' := by
  refine ⟨_, eraseRegisters_eq_ok_iff.mpr ⟨Procedure.checkInsts_of_lt fun v member => ?_, rfl⟩⟩
  exact inside v (mem_tainted.mpr (Std.ExtTreeMap.mem_keys.mp member))

theorem MadeOf.eraseRegisters (made : MadeOf parts s) (inside : ∀ u, parts u → u.tainted.Inside f)
    (erased : Trails.eraseRegisters f s = .ok s') :
    MadeOf (Outcomes (Trails.eraseRegisters f) parts) s' where
  values v member := by
    obtain ⟨before, isVariable⟩ := (mem_eraseRegisters_iff erased).mp member
    obtain ⟨u, isPart, there⟩ := made.values v before
    obtain ⟨u', erased'⟩ := eraseRegisters_returns (inside u isPart)
    exact ⟨u', ⟨u, isPart, erased'⟩, (mem_eraseRegisters_iff erased').mpr ⟨there, isVariable⟩⟩
  trails v p member := by
    obtain ⟨before, isVariable⟩ := (mem_textsOf_eraseRegisters_iff erased).mp member
    obtain ⟨u, isPart, there⟩ := made.trails v p before
    obtain ⟨u', erased'⟩ := eraseRegisters_returns (inside u isPart)
    exact ⟨u', ⟨u, isPart, erased'⟩,
      (mem_textsOf_eraseRegisters_iff erased').mpr ⟨there, isVariable⟩⟩
  least := by
    obtain ⟨u, isPart, fewer⟩ := made.least
    obtain ⟨u', erased'⟩ := eraseRegisters_returns (inside u isPart)
    refine ⟨u', ⟨u, isPart, erased'⟩, fun v member => ?_⟩
    obtain ⟨before, isVariable⟩ := (mem_eraseRegisters_iff erased').mp member
    exact (mem_eraseRegisters_iff erased).mpr ⟨fewer v before, isVariable⟩

/-- A block carries a state to one that is made of what it makes of the parts. -/
theorem MadeOf.through (closed : f.Closed) (made : MadeOf parts s)
    (inside : ∀ u, parts u → u.tainted.Inside f)
    (agree : ∀ done id rest u u' t t', f.instsOf b = .ok (done ++ id :: rest) →
      parts u → parts u' → done.foldlM (TaintSet.step source f) u.tainted = .ok t →
      done.foldlM (TaintSet.step source f) u'.tainted = .ok t' → AgreeAt source f id t t')
    (carried : Trails.through source f b s = .ok s') :
    MadeOf (Outcomes (Trails.through source f b) parts) s' := by
  obtain ⟨label, ids, s₁, labelled, found, stepped, erased⟩ := through_eq_ok_iff.mp carried
  have there : ∀ id ∈ ids, id < f.numInsts := fun id member =>
    Procedure.inst_eq_ok_iff.mp (((closed.owner b ids found id).mp member).imp fun _ => And.left)
  have insideLonger : ∀ u', (∃ u, parts u ∧ u.extend label = u') → u'.tainted.Inside f := by
    rintro _ ⟨u, isPart, rfl⟩
    rw [tainted_extend]
    exact inside u isPart
  have stepsMade := made.extend.steps closed there insideLonger ?_ stepped
  · have insideStepped : ∀ u', Outcomes (ids.foldlM (Trails.step source f label))
        (fun u => ∃ u₀, parts u₀ ∧ u₀.extend label = u) u' → u'.tainted.Inside f := by
      rintro u' ⟨u, isPart, folded⟩
      exact foldlM_keeps (P := fun u : Trails => u.tainted.Inside f)
        (fun _ _ _ _ before stepped => TaintSet.step_inside closed before
          (tainted_step_of_ok stepped)) (insideLonger u isPart) folded
    refine (stepsMade.eraseRegisters insideStepped erased).of_parts ?_
    rintro u' ⟨u₁, ⟨_, ⟨u, isPart, rfl⟩, folded⟩, erased'⟩
    exact ⟨u, isPart, through_eq_ok_iff.mpr ⟨label, ids, u₁, labelled, found, folded, erased'⟩⟩
  · rintro done id rest _ _ t t' split ⟨u, isPart, rfl⟩ ⟨u', isPart', rfl⟩ folded folded'
    exact agree done id rest u u' t.tainted t'.tainted (by rw [found, split]) isPart isPart'
      (tainted_extend_steps_of_ok folded) (tainted_extend_steps_of_ok folded')

end Trails

end FlowGraph

import NominalGenerics.Proofs.Scoping
import NominalGenerics.Proofs.UniformCollection

/-!
# Where witnesses come from

A match records a witness where it comes to a type parameter of the callable, and nothing else.
`Visits` says to which comparisons a match comes: to the parts of a comparison, one after the other,
as long as those before them match and the depth limit is not reached. `collect_found` states that
exactly the witnesses given there are recorded, also if the match fails; a match that succeeds comes
to every nested comparison that gives one.

What holds along the way from a comparison to its parts then holds of the witnesses. Below a template
that is no parameter, value types are exact witnesses; so is everything below an invariant position.
-/

namespace NominalGenerics

open Relation (ReflTransGen TransGen)

/-- A witness is recorded for a parameter that has a bound set. -/
theorem Recorded.lt {bounds : List BoundSet} {position : Nat} {type : Handle} {flow : Flow}
    (h : Recorded bounds position type flow) : position < bounds.length := by
  obtain ⟨set, hset, -⟩ := h
  exact (List.getElem?_eq_some_iff.mp hset).choose

/-- What has been recorded on top of given bounds. -/
theorem recorded_recordAll {bounds : List BoundSet} {found : List WitnessAt} {position : Nat}
    {type : Handle} {flow : Flow} :
    Recorded (recordAll bounds found) position type flow ↔ Recorded bounds position type flow ∨
      position < bounds.length ∧ (⟨position, type, flow⟩ : WitnessAt) ∈ found := by
  have hsides : ∀ {sets : List BoundSet}, Recorded sets position type flow ↔
      position < sets.length ∧ type ∈ (sets[position]?.getD {}).side flow := by
    intro sets
    constructor
    · intro h
      obtain ⟨set, hset, htype⟩ := id h
      exact ⟨h.lt, by rwa [hset]⟩
    · rintro ⟨hlt, htype⟩
      rw [List.getElem?_eq_getElem hlt] at htype
      exact ⟨_, List.getElem?_eq_getElem hlt, htype⟩
  have htypes : type ∈ typesAt found position flow ↔
      (⟨position, type, flow⟩ : WitnessAt) ∈ found := by
    simp only [typesAt, List.mem_map, List.mem_filter, decide_eq_true_eq]
    constructor
    · rintro ⟨witness, ⟨hmem, rfl, rfl⟩, rfl⟩
      exact hmem
    · exact fun hmem => ⟨_, ⟨hmem, rfl, rfl⟩, rfl⟩
  rw [hsides, hsides, length_recordAll]
  by_cases hposition : position < bounds.length
  · rw [side_recordAll hposition, Witnesses.mem_addAll, htypes]
    simp [hposition]
  · simp [hposition]

namespace Collection

/-- The template is a type parameter of the callable, so the comparison gives a witness for it. -/
def Gives (store : Store) (signature : Signature) (c : Comparison) (witness : WitnessAt) : Prop :=
  ∃ info, store.param? c.target = .ok (some info) ∧ info.owner = .callable signature.id ∧
    witness = ⟨info.position, c.source, c.flow⟩

/-- Of the arguments of two instantiations, an open template is matched after the arguments before it
have matched. -/
def ArgumentTried (store : Store) (M : Comparison → Prop) (flow : Flow) (definition : Handle)
    (sourceArgs targetArgs : List Handle) (d : Comparison) : Prop :=
  sourceArgs.length = targetArgs.length ∧ ∃ position,
    sourceArgs[position]? = some d.source ∧ targetArgs[position]? = some d.target ∧
      ArgumentAt store flow definition position d ∧ store.isOpen d.target = .ok true ∧
        ∀ (i : Nat) x y, i < position → sourceArgs[i]? = some x → targetArgs[i]? = some y →
          ArgumentMatches store M flow definition i x y

/-- Matching `c` tries to match `d` as a part of it, over a relation for the parts that match. -/
inductive Tries (store : Store) (M : Comparison → Prop) : Comparison → Comparison → Prop
  | element {c d : Comparison} (hcompound : Compound store c.target)
      (harray : HasArray store c.source c.target) (helements : Elements store c d) :
      Tries store M c d
  | argument {c d : Comparison} {definition : Handle} {sourceArgs targetArgs : List Handle}
      (hcompound : Compound store c.target) (harray : ¬ HasArray store c.source c.target)
      (hinstances : Instances store c definition sourceArgs targetArgs)
      (htried : ArgumentTried store M c.flow definition sourceArgs targetArgs d) : Tries store M c d

/-- Matching the first comparison comes to the second, within a number of levels and with bound sets for
`width` type parameters. -/
inductive Visits (store : Store) (signature : Signature) (width : Nat) :
    Nat → Comparison → Comparison → Prop
  | self {levels : Nat} {c : Comparison} : Visits store signature width (levels + 1) c c
  | part {levels : Nat} {c d e : Comparison}
      (htries : Tries store
        (Matches store signature (fun position _ _ => position < width) levels) c d)
      (hvisits : Visits store signature width levels d e) :
      Visits store signature width (levels + 1) c e

section Visiting

variable {store : Store} {signature : Signature} {width levels : Nat} {M : Comparison → Prop}
  {c d : Comparison}

theorem Tries.nested (h : Tries store M c d) : Nested store c d := by
  cases h with
  | element hcompound harray helements => exact .element hcompound harray helements
  | argument hcompound harray hinstances htried =>
      obtain ⟨-, position, hsource, htarget, hargument, -, -⟩ := htried
      exact .argument hcompound harray hinstances hsource htarget hargument

theorem Tries.compound (h : Tries store M c d) : Compound store c.target := by
  cases h with
  | element hcompound => exact hcompound
  | argument hcompound => exact hcompound

theorem Visits.path (h : Visits store signature width levels c d) :
    ReflTransGen (Nested store) c d := by
  induction h with
  | self => exact .refl
  | part htries _ ih => exact .head htries.nested ih

/-- A comparison that matches tries all its parts with open templates, and they match. -/
theorem MatchStep.tries {record : Nat → Handle → Flow → Prop}
    (h : MatchStep store signature record M c) (hnested : Nested store c d)
    (hopen : store.isOpen d.target = .ok true) : Tries store M c d ∧ M d := by
  cases hnested with
  | element hcompound harray helements =>
      refine ⟨.element hcompound harray helements, ?_⟩
      cases h with
      | own hparam | foreign hparam => cases hcompound.1.symm.trans hparam
      | concrete _ hclosed => cases hcompound.2.symm.trans hclosed
      | elements _ _ helements' hmatch => exact helements.unique helements' ▸ hmatch
      | ambiguous _ hnone | arguments _ hnone => exact absurd harray hnone
  | argument hcompound hnone hinstances hsource htarget hargument =>
      cases h with
      | own hparam | foreign hparam => cases hcompound.1.symm.trans hparam
      | concrete _ hclosed => cases hcompound.2.symm.trans hclosed
      | elements _ harray => exact absurd harray hnone
      | ambiguous _ _ hambiguous => exact absurd hambiguous hinstances.not_ambiguous
      | arguments _ _ hinstances' hargs =>
          obtain ⟨rfl, rfl, rfl⟩ := hinstances.unique hinstances'
          obtain ⟨hlength, hall⟩ := hargs
          refine ⟨.argument hcompound hnone hinstances ⟨hlength, _, hsource, htarget, hargument, hopen,
            fun i x y _ => hall i x y⟩, ?_⟩
          obtain ⟨flow, hargument', ⟨-, hmatch⟩ | ⟨hclosed, -⟩⟩ := hall _ _ _ hsource htarget
          · exact hargument.unique hargument' rfl rfl ▸ hmatch
          · cases hopen.symm.trans hclosed

/-- A template on the way to a type parameter mentions it. -/
theorem Gives.isOpen (hs : store.Coherent) {witness : WitnessAt} (h : Gives store signature d witness)
    (hpath : ReflTransGen (Nested store) c d) : store.isOpen c.target = .ok true := by
  obtain rfl | ⟨e, hnested, -⟩ := ReflTransGen.cases_head hpath
  · obtain ⟨info, hparam, -⟩ := h
    exact (Store.paramAt_of_param? hparam).isOpen hs
  · cases hnested with
    | element hcompound => exact hcompound.2
    | argument hcompound => exact hcompound.2

/-- A match that succeeds comes to all nested comparisons that give witnesses. -/
theorem Matches.visits (hs : store.Coherent) {witness : WitnessAt}
    (h : Matches store signature (fun position _ _ => position < width) levels c)
    (hpath : ReflTransGen (Nested store) c d) (hgives : Gives store signature d witness) :
    witness.position < width ∧ Visits store signature width levels c d := by
  induction hpath using ReflTransGen.head_induction_on generalizing levels with
  | refl =>
      obtain ⟨info, hparam, howner, rfl⟩ := hgives
      cases levels with
      | zero => exact h.elim
      | succ levels =>
          refine ⟨?_, .self⟩
          cases h with
          | own hparam' _ hrecord =>
              cases hparam.symm.trans hparam'
              exact hrecord
          | foreign hparam' hother =>
              cases hparam.symm.trans hparam'
              exact absurd howner hother
          | concrete hnone => cases hnone.symm.trans hparam
          | elements hcompound | ambiguous hcompound | arguments hcompound =>
              cases hcompound.1.symm.trans hparam
  | head hnested hpath ih =>
      cases levels with
      | zero => exact h.elim
      | succ levels =>
          obtain ⟨htries, hmatch⟩ := MatchStep.tries h hnested (hgives.isOpen hs hpath)
          obtain ⟨hposition, hvisits⟩ := ih hmatch
          exact ⟨hposition, .part htries hvisits⟩

end Visiting

/-- A walk that ends has recorded exactly the witnesses of a kind. -/
def Records (levels width : Nat) (walk : CollectM Bool) (W : WitnessAt → Prop) : Prop :=
  ∀ collector, Ready levels width collector → ∀ matched collector',
    walk.run collector = .ok (matched, collector') →
      ∃ found, collector'.bounds = recordAll collector.bounds found ∧
        ∀ witness, witness ∈ found ↔ W witness

/-- A walk that ends answers whether `Q` holds, at the level at which it started. -/
def Decides (levels width : Nat) (walk : CollectM Bool) (Q : Prop) : Prop :=
  ∀ collector, Ready levels width collector → ∀ matched collector',
    walk.run collector = .ok (matched, collector') →
      Ready levels width collector' ∧ (matched = true ↔ Q)

section Walks

variable {α : Type} {levels width : Nat} {W W' : WitnessAt → Prop} {walk : CollectM Bool}

theorem Collects.decides {size : Nat} {P : List BoundSet → Prop} {Q : Prop}
    (h : Collects size levels width walk P Q)
    (hPQ : ∀ bounds : List BoundSet, bounds.length = width → P bounds → Q) :
    Decides levels width walk Q := by
  intro collector hready matched collector' hrun
  obtain ⟨_, _, hrun', hready', -, -, hsound, hcomplete⟩ := h collector hready
  cases hrun.symm.trans hrun'
  refine ⟨hready', fun hmatched => ?_, fun hQ => ?_⟩
  · exact hPQ _ hready'.width (hsound hmatched _ (BoundsGrow.refl _ _))
  · cases matched with
    | true => rfl
    | false => exact absurd hQ (hcomplete rfl)

theorem Records.congr (h : Records levels width walk W) (hW : ∀ witness, W witness ↔ W' witness) :
    Records levels width walk W' := by
  intro collector hready matched collector' hrun
  obtain ⟨found, hbounds, hfound⟩ := h collector hready matched collector' hrun
  exact ⟨found, hbounds, fun witness => (hfound witness).trans (hW witness)⟩

theorem records_pure (matched : Bool) (hW : ∀ witness, ¬ W witness) :
    Records levels width (pure matched) W := by
  intro collector _ _ collector' hrun
  obtain ⟨-, rfl⟩ := run_pure_eq_ok.mp hrun
  exact ⟨[], rfl, fun witness => by simp [hW witness]⟩

theorem records_query (x : Query Bool) (hW : ∀ witness, ¬ W witness) :
    Records levels width (liftM x) W := by
  intro collector _ _ collector' hrun
  obtain ⟨-, rfl⟩ := run_lift_eq_ok.mp hrun
  exact ⟨[], rfl, fun witness => by simp [hW witness]⟩

/-- A walk that goes on from an answer of the store. -/
theorem records_read {x : Query α} {next : α → CollectM Bool}
    (hnext : ∀ a, x = .ok a → Records levels width (next a) W) :
    Records levels width (liftM x >>= next) W := by
  intro collector hready matched collector' hrun
  obtain ⟨a, between, hlift, hrun⟩ := run_bind_eq_ok.mp hrun
  obtain ⟨hx, rfl⟩ := run_lift_eq_ok.mp hlift
  exact hnext a hx collector hready matched collector' hrun

/-- The walk over a list goes on as long as the answers are positive. -/
theorem records_allM {f : α → CollectM Bool} {as : List α} {Q : α → Prop}
    {W : α → WitnessAt → Prop} (hdecides : ∀ a ∈ as, Decides levels width (f a) (Q a))
    (hrecords : ∀ a ∈ as, Records levels width (f a) (W a)) :
    Records levels width (as.allM f) fun witness =>
      ∃ (i : Nat) (a : α), as[i]? = some a ∧ W a witness ∧
        ∀ (j : Nat) b, j < i → as[j]? = some b → Q b := by
  induction as with
  | nil => exact records_pure true (by simp)
  | cons a as ih =>
      intro collector hready matched collector' hrun
      rw [List.allM] at hrun
      obtain ⟨answer, between, hfirst, hrun⟩ := run_bind_eq_ok.mp hrun
      obtain ⟨hready', hanswer⟩ :=
        hdecides a List.mem_cons_self collector hready answer between hfirst
      obtain ⟨found, hbounds, hfound⟩ :=
        hrecords a List.mem_cons_self collector hready answer between hfirst
      cases answer with
      | false =>
          -- Nothing after the first element is visited.
          obtain ⟨-, rfl⟩ := run_pure_eq_ok.mp hrun
          have hfailed : ¬ Q a := fun hQ => Bool.noConfusion (hanswer.mpr hQ)
          refine ⟨found, hbounds, fun witness => (hfound witness).trans ⟨fun hW => ?_, ?_⟩⟩
          · exact ⟨0, a, rfl, hW, by simp⟩
          · rintro ⟨i, b, hb, hW, hbefore⟩
            cases i with
            | zero => exact Option.some.inj hb ▸ hW
            | succ i => exact absurd (hbefore 0 a (Nat.succ_pos i) rfl) hfailed
      | true =>
          obtain ⟨found', hbounds', hfound'⟩ :=
            ih (fun b hb => hdecides b (List.mem_cons_of_mem a hb))
              (fun b hb => hrecords b (List.mem_cons_of_mem a hb)) between hready' matched collector'
              hrun
          refine ⟨found ++ found', by rw [hbounds', hbounds, recordAll_append], fun witness => ?_⟩
          rw [List.mem_append, hfound, hfound']
          constructor
          · rintro (hW | ⟨i, b, hb, hW, hbefore⟩)
            · exact ⟨0, a, rfl, hW, by simp⟩
            · refine ⟨i + 1, b, hb, hW, fun j x hj hx => ?_⟩
              cases j with
              | zero => exact Option.some.inj hx ▸ hanswer.mp rfl
              | succ j => exact hbefore j x (Nat.lt_of_succ_lt_succ hj) hx
          · rintro ⟨i, b, hb, hW, hbefore⟩
            cases i with
            | zero => exact Or.inl (Option.some.inj hb ▸ hW)
            | succ i =>
                exact Or.inr ⟨i, b, hb, hW, fun j x hj hx => hbefore (j + 1) x (Nat.succ_lt_succ hj) hx⟩

theorem record_records (position : Nat) (source : Handle) (flow : Flow) :
    Records levels width (record position source flow) fun witness =>
      witness.position < width ∧ witness = ⟨position, source, flow⟩ := by
  intro collector hready matched collector' hrun
  rw [record] at hrun
  obtain ⟨_, _, hget, hrun⟩ := run_bind_eq_ok.mp hrun
  cases hget
  rw [hready.width] at hrun
  split at hrun
  · next hlt =>
      cases hrun
      refine ⟨[⟨position, source, flow⟩], rfl, fun witness => List.mem_singleton.trans ?_⟩
      exact (and_iff_right_of_imp fun h => h ▸ hlt).symm
  · next hge =>
      cases hrun
      refine ⟨[], rfl, fun witness => ?_⟩
      simp only [List.not_mem_nil, false_iff, not_and]
      rintro hlt rfl
      exact hge hlt

end Walks

section Steps

variable {store : Store} {signature : Signature} {levels width : Nat} {M : Comparison → Prop}
  {W : Comparison → WitnessAt → Prop} {collect : Handle → Handle → Flow → CollectM Bool}
  {source target : Handle} {flow : Flow}

theorem arrays_records (hrecords : ∀ d : Comparison, Elements store ⟨source, target, flow⟩ d →
      Records levels width (collect d.source d.target d.flow) (W d)) :
    Records levels width (arrays store collect source target flow) fun witness =>
      ∃ d, Elements store ⟨source, target, flow⟩ d ∧ W d witness := by
  have hpart : ∀ {d : Comparison}, Elements store ⟨source, target, flow⟩ d →
      Records levels width (collect d.source d.target d.flow) fun witness =>
        ∃ d, Elements store ⟨source, target, flow⟩ d ∧ W d witness := fun hd =>
    (hrecords _ hd).congr fun witness =>
      ⟨fun hW => ⟨_, hd, hW⟩, fun ⟨_, hd', hW⟩ => hd'.unique hd ▸ hW⟩
  unfold arrays
  split
  · refine records_read fun sshape hsshape => records_read fun tshape htshape => ?_
    split
    · next selement srank telement trank =>
        split
        · next hrank =>
            subst hrank
            exact hpart (d := ⟨selement, telement, .invariant⟩) ⟨rfl, _, hsshape, htshape⟩
        · next hrank =>
            refine records_pure false ?_
            rintro witness ⟨d, ⟨-, rank, hsource, htarget⟩, -⟩
            cases hsshape.symm.trans hsource
            cases htshape.symm.trans htarget
            exact hrank rfl
    · next hnone =>
        refine records_pure false ?_
        rintro witness ⟨d, ⟨-, rank, hsource, htarget⟩, -⟩
        cases hsshape.symm.trans hsource
        cases htshape.symm.trans htarget
        exact hnone _ _ _ _ rfl rfl
  · next hflow =>
      refine records_read fun shape hshape => ?_
      split
      · refine records_pure false ?_
        rintro witness ⟨d, helements, -⟩
        obtain ⟨_, _, _, harray, -⟩ := (elements_iff_of_ne hflow).mp helements
        cases hshape.symm.trans harray
      · next element rank =>
          refine records_read fun sresult hselement => records_read fun tresult htelement => ?_
          split
          · next selement telement =>
              refine records_read fun valueType hvalue => ?_
              exact hpart (d := ⟨selement, telement, if valueType then .invariant else flow⟩)
                ((elements_iff_of_ne hflow).mpr
                  ⟨element, rank, valueType, hshape, hselement, htelement, hvalue, rfl⟩)
          · next hnone =>
              refine records_pure false ?_
              rintro witness ⟨d, helements, -⟩
              obtain ⟨_, _, _, harray, hsource, htarget, -⟩ :=
                (elements_iff_of_ne hflow).mp helements
              cases hshape.symm.trans harray
              exact hnone _ _ (Except.ok.inj (hselement.symm.trans hsource))
                (Except.ok.inj (htelement.symm.trans htarget))

/-- The argument at one position is matched if it is open. -/
theorem argument_records {definition : Handle} {position : Nat}
    (hrecords : ∀ d : Comparison, d.source = source → d.target = target →
      Records levels width (collect d.source d.target d.flow) (W d)) :
    Records levels width (argument store collect definition flow source target position)
      fun witness => ∃ d : Comparison, d.source = source ∧ d.target = target ∧
        ArgumentAt store flow definition position d ∧ store.isOpen d.target = .ok true ∧
          W d witness := by
  refine records_read fun variance hvariance => records_read fun valueType hvalue =>
    records_read fun isOpen hopen => ?_
  split
  · next htrue =>
      subst htrue
      have hat : ArgumentAt store flow definition position
          ⟨source, target, flow.combine variance valueType⟩ :=
        ⟨variance, valueType, hvariance, hvalue, rfl⟩
      refine (hrecords ⟨source, target, flow.combine variance valueType⟩ rfl rfl).congr
        fun witness => ⟨fun hW => ⟨_, rfl, rfl, hat, hopen, hW⟩, ?_⟩
      rintro ⟨d, hsource, htarget, hat', -, hW⟩
      exact hat'.unique hat hsource htarget ▸ hW
  · next hclosed =>
      refine records_query _ ?_
      rintro witness ⟨d, -, rfl, -, hopen', -⟩
      exact hclosed (Except.ok.inj (hopen.symm.trans hopen'))

theorem arguments_records {definition : Handle} {sourceArgs targetArgs : List Handle}
    (hdecides : ∀ (i : Nat) x y, sourceArgs[i]? = some x → targetArgs[i]? = some y →
      Decides levels width (argument store collect definition flow x y i)
        (ArgumentMatches store M flow definition i x y))
    (hrecords : ∀ d : Comparison, d.source ∈ sourceArgs → d.target ∈ targetArgs →
      Records levels width (collect d.source d.target d.flow) (W d)) :
    Records levels width (arguments store collect definition sourceArgs targetArgs flow)
      fun witness => ∃ d, ArgumentTried store M flow definition sourceArgs targetArgs d ∧
        W d witness := by
  have hat : ∀ {i j : Nat} {x y : Handle},
      (sourceArgs.zip targetArgs).zipIdx[i]? = some ((x, y), j) ↔
        i = j ∧ sourceArgs[i]? = some x ∧ targetArgs[i]? = some y := by
    intro i j x y
    rw [List.getElem?_zipIdx, Option.map_eq_some_iff]
    constructor
    · rintro ⟨p, hp, heq⟩
      cases heq
      exact ⟨(Nat.zero_add i).symm, List.getElem?_zip_eq_some.mp hp⟩
    · rintro ⟨rfl, hp⟩
      exact ⟨(x, y), List.getElem?_zip_eq_some.mpr hp, by rw [Nat.zero_add]⟩
  unfold arguments
  split
  · next hlength =>
      refine (records_allM (Q := fun p => ArgumentMatches store M flow definition p.2 p.1.1 p.1.2)
        (W := fun p witness => ∃ d : Comparison, d.source = p.1.1 ∧ d.target = p.1.2 ∧
          ArgumentAt store flow definition p.2 d ∧ store.isOpen d.target = .ok true ∧ W d witness)
        (fun p hp => ?_) fun p hp => ?_).congr fun witness => ⟨?_, ?_⟩
      · obtain ⟨i, hi⟩ := List.getElem?_of_mem hp
        obtain ⟨rfl, hx, hy⟩ := hat.mp hi
        exact hdecides _ _ _ hx hy
      · obtain ⟨hx, hy⟩ := List.of_mem_zip (List.fst_mem_of_mem_zipIdx hp)
        exact argument_records fun d hsource htarget =>
          hrecords d (hsource ▸ hx) (htarget ▸ hy)
      · rintro ⟨i, ⟨⟨x, y⟩, j⟩, hp, ⟨d, rfl, rfl, hargument, hopen, hW⟩, hbefore⟩
        obtain ⟨rfl, hx, hy⟩ := hat.mp hp
        exact ⟨d, ⟨hlength, i, hx, hy, hargument, hopen, fun k x y hk hx hy =>
          hbefore k ((x, y), k) hk (hat.mpr ⟨rfl, hx, hy⟩)⟩, hW⟩
      · rintro ⟨d, ⟨-, i, hx, hy, hargument, hopen, hbefore⟩, hW⟩
        refine ⟨i, ((d.source, d.target), i), hat.mpr ⟨rfl, hx, hy⟩,
          ⟨d, rfl, rfl, hargument, hopen, hW⟩, ?_⟩
        rintro k ⟨⟨x, y⟩, j⟩ hk hp
        obtain ⟨rfl, hx, hy⟩ := hat.mp hp
        exact hbefore k x y hk hx hy
  · next hlength => exact records_pure false fun witness ⟨d, htried, _⟩ => hlength htried.1

theorem implementation_records
    (harguments : ∀ definition sourceArgs targetArgs,
      Instances store ⟨source, target, flow⟩ definition sourceArgs targetArgs →
        Records levels width (arguments store collect definition sourceArgs targetArgs flow)
          fun witness => ∃ d, ArgumentTried store M flow definition sourceArgs targetArgs d ∧
            W d witness) :
    Records levels width (implementation store collect source target flow) fun witness =>
      ∃ definition sourceArgs targetArgs d,
        Instances store ⟨source, target, flow⟩ definition sourceArgs targetArgs ∧
          ArgumentTried store M flow definition sourceArgs targetArgs d ∧ W d witness := by
  have hfound : ∀ {definition sourceArgs targetArgs},
      Instances store ⟨source, target, flow⟩ definition sourceArgs targetArgs →
        Records levels width (arguments store collect definition sourceArgs targetArgs flow)
          fun witness => ∃ definition sourceArgs targetArgs d,
            Instances store ⟨source, target, flow⟩ definition sourceArgs targetArgs ∧
              ArgumentTried store M flow definition sourceArgs targetArgs d ∧ W d witness := by
    intro definition sourceArgs targetArgs hinstances
    refine (harguments _ _ _ hinstances).congr fun witness => ⟨fun ⟨d, htried, hW⟩ =>
      ⟨_, _, _, d, hinstances, htried, hW⟩, ?_⟩
    rintro ⟨definition', sourceArgs', targetArgs', d, hinstances', htried, hW⟩
    obtain ⟨rfl, rfl, rfl⟩ := hinstances.unique hinstances'
    exact ⟨d, htried, hW⟩
  refine records_read fun sdefinition hsd => records_read fun tdefinition htd => ?_
  cases flow with
  | invariant =>
      dsimp only
      split
      · next hsame =>
          subst hsame
          refine records_read fun sargs hsargs => records_read fun targs htargs => ?_
          exact hfound ⟨hsd, htd, hsargs, htargs⟩
      · next hne =>
          refine records_pure false ?_
          rintro witness ⟨definition, _, _, _, ⟨hd, hd', -⟩, -⟩
          exact hne (Except.ok.inj (hsd.symm.trans (hd.trans (hd'.symm.trans htd))))
  | covariant =>
      refine records_read fun result hresult => ?_
      cases result with
      | found found =>
          refine records_read fun sargs hsargs => records_read fun targs htargs => ?_
          exact hfound ⟨htd, htargs, found, hresult, hsargs⟩
      | ambiguous | notFound =>
          refine records_pure _ ?_
          rintro witness ⟨definition, _, _, _, ⟨hd, -, found, hfound, -⟩, -⟩
          cases htd.symm.trans hd
          cases hresult.symm.trans hfound
  | contravariant =>
      refine records_read fun result hresult => ?_
      cases result with
      | found found =>
          refine records_read fun sargs hsargs => records_read fun targs htargs => ?_
          exact hfound ⟨hsd, hsargs, found, hresult, htargs⟩
      | ambiguous | notFound =>
          refine records_pure _ ?_
          rintro witness ⟨definition, _, _, _, ⟨hd, -, found, hfound, -⟩, -⟩
          cases hsd.symm.trans hd
          cases hresult.symm.trans hfound

/-- A step records what the comparison itself gives and what its parts do. -/
theorem step_records {c : Comparison}
    (harguments : ∀ definition sourceArgs targetArgs,
      Instances store c definition sourceArgs targetArgs →
        Records levels width (arguments store collect definition sourceArgs targetArgs c.flow)
          fun witness => ∃ d, ArgumentTried store M c.flow definition sourceArgs targetArgs d ∧
            W d witness)
    (helements : ∀ d, Elements store c d →
      Records levels width (collect d.source d.target d.flow) (W d)) :
    Records levels width (step store signature collect c.source c.target c.flow) fun witness =>
      (witness.position < width ∧ Gives store signature c witness) ∨
        ∃ d, Tries store M c d ∧ W d witness := by
  refine records_read fun info? hinfo => ?_
  split
  · next info =>
      have hnone : ∀ d, ¬ Tries store M c d := fun d htries => by
        cases htries.compound.1.symm.trans hinfo
      split
      · next howner =>
          refine (record_records _ _ _).congr fun witness => ⟨fun ⟨hlt, hwitness⟩ =>
            Or.inl ⟨hlt, info, hinfo, howner, hwitness⟩, ?_⟩
          rintro (⟨hlt, info', hinfo', -, hwitness⟩ | ⟨d, htries, -⟩)
          · cases hinfo.symm.trans hinfo'
            exact ⟨hlt, hwitness⟩
          · exact absurd htries (hnone d)
      · next hother =>
          refine records_read fun bound _ => records_query _ ?_
          rintro witness (⟨-, info', hinfo', howner, -⟩ | ⟨d, htries, -⟩)
          · cases hinfo.symm.trans hinfo'
            exact hother howner
          · exact hnone d htries
  · have hnone : ∀ witness, ¬ Gives store signature c witness := fun witness ⟨info, hparam, _⟩ => by
      cases hinfo.symm.trans hparam
    refine records_read fun isOpen hopen => ?_
    split
    · next htrue =>
        subst htrue
        have hcompound : Compound store c.target := ⟨hinfo, hopen⟩
        refine records_read fun sshape hsshape => records_read fun tshape htshape => ?_
        split
        · next harray =>
            have harray : HasArray store c.source c.target := ⟨_, _, hsshape, htshape, harray⟩
            refine (arrays_records helements).congr fun witness => ⟨fun ⟨d, hd, hW⟩ =>
              Or.inr ⟨d, .element hcompound harray hd, hW⟩, ?_⟩
            rintro (⟨-, hgives⟩ | ⟨d, htries, hW⟩)
            · exact absurd hgives (hnone witness)
            · cases htries with
              | element _ _ hd => exact ⟨d, hd, hW⟩
              | argument _ hno => exact absurd harray hno
        · next hno =>
            have hno : ¬ HasArray store c.source c.target := by
              rintro ⟨s, t, hs, ht, harray⟩
              cases hsshape.symm.trans hs
              cases htshape.symm.trans ht
              exact hno harray
            refine (implementation_records harguments).congr fun witness =>
              ⟨fun ⟨_, _, _, d, hinstances, htried, hW⟩ =>
                Or.inr ⟨d, .argument hcompound hno hinstances htried, hW⟩, ?_⟩
            rintro (⟨-, hgives⟩ | ⟨d, htries, hW⟩)
            · exact absurd hgives (hnone witness)
            · cases htries with
              | element _ harray => exact absurd harray hno
              | argument _ _ hinstances htried => exact ⟨_, _, _, d, hinstances, htried, hW⟩
    · next hclosed =>
        refine records_query _ ?_
        rintro witness (⟨-, hgives⟩ | ⟨d, htries, -⟩)
        · exact hnone witness hgives
        · exact hclosed (Except.ok.inj (hopen.symm.trans htries.compound.2))

/-- At the depth limit nothing is recorded. -/
theorem visit_records_full {W : WitnessAt → Prop} (hW : ∀ witness, ¬ W witness) :
    Records 0 width (visit store signature collect source target flow) W := by
  intro collector hready matched collector' hrun
  have hfull : collector.depth.maxDepth ≤ collector.depth.depth := by
    rw [← hready.depth]
    exact Nat.le_refl _
  rw [visit] at hrun
  obtain ⟨_, _, hget, hrun⟩ := run_bind_eq_ok.mp hrun
  cases hget
  simp only [DepthCounter.enter, if_pos hfull] at hrun
  cases hrun
  exact ⟨[], rfl, fun witness => by simp [hW witness]⟩

theorem visit_records {W : WitnessAt → Prop}
    (h : Records levels width (step store signature collect source target flow) W) :
    Records (levels + 1) width (visit store signature collect source target flow) W := by
  intro collector hready matched collector' hrun
  have hdepth := hready.depth
  have hroom : ¬ collector.depth.maxDepth ≤ collector.depth.depth := by omega
  rw [visit] at hrun
  obtain ⟨_, _, hget, hrun⟩ := run_bind_eq_ok.mp hrun
  cases hget
  simp only [DepthCounter.enter, if_neg hroom] at hrun
  obtain ⟨_, entered, hset, hrun⟩ := run_bind_eq_ok.mp hrun
  cases hset
  obtain ⟨_, between, hstep, hrun⟩ := run_bind_eq_ok.mp hrun
  obtain ⟨found, hbounds, hfound⟩ :=
    h { collector with depth := { collector.depth with depth := collector.depth.depth + 1 } }
      ⟨hready.width, by simp only; omega⟩ _ _ hstep
  obtain ⟨_, _, hget, hrun⟩ := run_bind_eq_ok.mp hrun
  cases hget
  obtain ⟨_, _, hleave, hrun⟩ := run_bind_eq_ok.mp hrun
  obtain ⟨-, rfl⟩ := run_lift_eq_ok.mp hleave
  cases hrun
  exact ⟨found, hbounds, hfound⟩

/-- Arguments are decided by matching at the same level. -/
theorem argument_decides (hs : store.WellFormed) (hsignature : store.SignatureInRange signature)
    {definition : Handle} {position : Nat} (hd : definition < store.size)
    (hsource : source < store.size) (htarget : target < store.size) :
    Decides levels width
      (argument store (collectWithin store signature levels) definition flow source target position)
      (ArgumentMatches store
        (Matches store signature (fun position _ _ => position < width) levels)
        flow definition position source target) := by
  refine (argument_collects hs (fun d hd hd' => collectWithin_collects hs hsignature hd hd')
    hd hsource htarget).decides fun bounds hwidth h => h.imp fun d hmatch =>
      hmatch.imp fun _ _ _ hrecorded => hwidth ▸ hrecorded.lt

/-- The match records exactly the witnesses that are given by the comparisons to which it comes. -/
theorem collectWithin_records (hs : store.WellFormed) (hsignature : store.SignatureInRange signature)
    (levels : Nat) (c : Comparison) (hsource : c.source < store.size)
    (htarget : c.target < store.size) :
    Records levels width (collectWithin store signature levels c.source c.target c.flow)
      fun witness => witness.position < width ∧
        ∃ d, Visits store signature width levels c d ∧ Gives store signature d witness := by
  induction levels generalizing c with
  | zero => exact visit_records_full fun witness ⟨_, d, hvisits, _⟩ => nomatch hvisits
  | succ levels ih =>
      refine visit_records ((step_records
        (M := Matches store signature (fun position _ _ => position < width) levels)
        (W := fun d witness => witness.position < width ∧
          ∃ e, Visits store signature width levels d e ∧ Gives store signature e witness)
        (fun definition sourceArgs targetArgs hinstances => ?_) fun d helements => ?_).congr
          fun witness => ⟨?_, ?_⟩)
      · obtain ⟨hsourceArgs, htargetArgs⟩ := hinstances.lt hs hsource htarget
        refine arguments_records (fun i x y hx hy => ?_) fun d hx hy =>
          ih d (hsourceArgs _ hx) (htargetArgs _ hy)
        exact argument_decides hs hsignature (hinstances.definition_lt hs hsource htarget)
          (hsourceArgs _ (List.mem_of_getElem? hx)) (htargetArgs _ (List.mem_of_getElem? hy))
      · obtain ⟨hx, hy⟩ := helements.lt hs hsource htarget
        exact ih d hx hy
      · rintro (⟨hlt, hgives⟩ | ⟨d, htries, hlt, e, hvisits, hgives⟩)
        · exact ⟨hlt, c, .self, hgives⟩
        · exact ⟨hlt, e, .part htries hvisits, hgives⟩
      · rintro ⟨hlt, e, hvisits, hgives⟩
        cases hvisits with
        | self => exact Or.inl ⟨hlt, hgives⟩
        | part htries hvisits => exact Or.inr ⟨_, htries, hlt, e, hvisits, hgives⟩

/-- Matching types of the store records exactly the witnesses given by the comparisons to which the
match comes. If it succeeds, it comes to all nested comparisons that give one. -/
theorem collect_found (hs : store.WellFormed) (hsignature : store.SignatureInRange signature)
    {c : Comparison} (hsource : c.source < store.size) (htarget : c.target < store.size)
    (bounds : List BoundSet) :
    ∃ matched found, Collection.collect store signature c.source c.target c.flow bounds =
        .ok (matched, recordAll bounds found) ∧
      (∀ witness, witness ∈ found ↔ witness.position < bounds.length ∧
        ∃ d, Visits store signature bounds.length Limits.collection.maxDepth c d ∧
          Gives store signature d witness) ∧
      (matched = true → ∀ d witness, ReflTransGen (Nested store) c d →
        Gives store signature d witness → witness ∈ found) := by
  obtain ⟨matched, bounds', hcollect, hgrow, hsound, -⟩ :=
    collect_matches hs hsignature c bounds hsource htarget
  obtain ⟨⟨_, collector⟩, hrun, hend⟩ := Query.bind_eq_ok.mp hcollect
  obtain ⟨_, -, hend⟩ := Query.bind_eq_ok.mp hend
  obtain ⟨rfl, rfl⟩ := Prod.mk.inj (Query.pure_eq_ok.mp hend)
  obtain ⟨found, hbounds, hfound⟩ := collectWithin_records hs hsignature _ c hsource htarget
    { bounds, depth := .ofLimits Limits.collection } ⟨rfl, Nat.zero_add _⟩ _ _ hrun
  refine ⟨_, found, hbounds ▸ hcollect, hfound, fun hmatched d witness hpath hgives => ?_⟩
  have hmatch : Matches store signature (fun position _ _ => position < bounds.length)
      Limits.collection.maxDepth c :=
    (hsound hmatched _ (BoundsGrow.refl _ _)).imp fun _ _ _ hrecorded =>
      hgrow.length ▸ hrecorded.lt
  obtain ⟨hlt, hvisits⟩ := hmatch.visits hs.coherent hpath hgives
  exact (hfound witness).mpr ⟨hlt, d, hvisits, hgives⟩

theorem flow_of_path {c d : Comparison} (h : ReflTransGen (Nested store) c d)
    (hflow : c.flow = .invariant) : d.flow = .invariant := by
  induction h with
  | refl => exact hflow
  | tail _ hnested ih => exact hnested.invariant ih

/-- Matching a template that is no type parameter adds value types to no lower and to no upper
bounds. It records exactly the witnesses given by the comparisons to which it comes, all nested in
the one that is matched, and leaves out none if it succeeds: a value type is recorded as an exact
witness, and so is everything below an invariant position. -/
theorem collect_nested_exact (hs : store.Reachable) (hsignature : store.SignatureInRange signature)
    {c : Comparison} (hsource : c.source < store.size) (htarget : c.target < store.size)
    (hproper : store.param? c.target = .ok none) (bounds : List BoundSet) :
    ∃ matched bounds' found, Collection.collect store signature c.source c.target c.flow bounds =
        .ok (matched, bounds') ∧ bounds' = recordAll bounds found ∧
      (∀ position type flow, store.isValueType type = .ok true → flow ≠ .invariant →
        (Recorded bounds' position type flow ↔ Recorded bounds position type flow)) ∧
      (∀ witness, witness ∈ found ↔ witness.position < bounds.length ∧
        ∃ d, Visits store signature bounds.length Limits.collection.maxDepth c d ∧
          Gives store signature d witness) ∧
      (matched = true → ∀ d witness, ReflTransGen (Nested store) c d →
        Gives store signature d witness → witness ∈ found) ∧
      ∀ witness ∈ found,
        (store.isValueType witness.type = .ok true →
          Recorded bounds' witness.position witness.type .invariant) ∧
        ∃ d, TransGen (Nested store) c d ∧ Gives store signature d witness ∧
          (store.isValueType witness.type = .ok true → witness.flow = .invariant) ∧
          ∀ e, ReflTransGen (Nested store) c e → e.flow = .invariant →
            ReflTransGen (Nested store) e d → witness.flow = .invariant := by
  obtain ⟨matched, found, hcollect, hfound, hall⟩ :=
    collect_found hs.lawful.wellFormed hsignature hsource htarget bounds
  -- The template is no parameter, so a witness comes from a part, and a part is compared by variance
  -- only if it is no value type.
  have hbelow : ∀ witness ∈ found, ∃ d, TransGen (Nested store) c d ∧
      Gives store signature d witness ∧
        (store.isValueType witness.type = .ok true → witness.flow = .invariant) := by
    intro witness hmem
    obtain ⟨-, d, hvisits, hgives⟩ := (hfound witness).mp hmem
    obtain ⟨info, hparam, howner, rfl⟩ := id hgives
    obtain rfl | htrans := Relation.reflTransGen_iff_eq_or_transGen.mp hvisits.path
    · cases hproper.symm.trans hparam
    · refine ⟨d, htrans, hgives, fun hvalue => ?_⟩
      obtain ⟨e, -, hnested⟩ := TransGen.tail'_iff.mp htrans
      by_contra hflow
      cases hvalue.symm.trans (isValueType_of_nested hnested hflow)
  refine ⟨matched, _, found, hcollect, rfl, fun position type flow hvalue hflow => ?_, hfound, hall,
    fun witness hmem => ?_⟩
  · rw [recorded_recordAll, or_iff_left]
    rintro ⟨-, hmem⟩
    obtain ⟨_, -, -, hexact⟩ := hbelow _ hmem
    exact hflow (hexact hvalue)
  · obtain ⟨d, htrans, hgives, hexact⟩ := hbelow witness hmem
    refine ⟨fun hvalue => ?_, d, htrans, hgives, hexact, fun e _ hflow hpath => ?_⟩
    · obtain ⟨hlt, -⟩ := (hfound witness).mp hmem
      have hsame : (⟨witness.position, witness.type, .invariant⟩ : WitnessAt) = witness := by
        rw [← hexact hvalue]
      exact recorded_recordAll.mpr (Or.inr ⟨hlt, hsame ▸ hmem⟩)
    · obtain ⟨info, -, -, rfl⟩ := hgives
      exact flow_of_path hpath hflow

end Steps

/-- Sinks of sources, and a callable that takes a sink of sources of arrays. -/
def feedOperations : List Operation :=
  [.declareGeneric .interfaceType "ISource" [("X", .covariant)],
    .declareGeneric .interfaceType "ISink" [("Y", .contravariant)],
    .declare .structType "int",
    .finish,
    .arrayOf 5 1,
    .instantiate 1 [6],
    .instantiate 3 [7],
    .declareCallable "Feed" ["T"],
    .arrayOf 9 1,
    .instantiate 1 [10],
    .instantiate 3 [11],
    .addParameter 0 12 .byValue]

/-- The store that `feedOperations` build: `Feed<T>(ISink<ISource<T[]>>)`. -/
def feedStore : Store := (Operation.runAll feedOperations (.ofRoot "object")).getD {}

/-- The callable of `feedStore`. -/
def feed : Signature := { id := 0, name := "Feed", typeParams := [9], params := [⟨12, .byValue⟩] }

/-- A sink of sources of arrays of `int` binds the parameter exactly, two flows and an array deep: the
match comes to a comparison that gives `int` as an exact witness, and `int` is no upper bound
afterwards. -/
theorem collect_nested_exact_feed :
    feedStore.isValueType 5 = .ok true ∧
      Collection.collect feedStore feed 8 12 .covariant [{}] = .ok (true, [{ exact := [5] }]) ∧
        (∃ d, Visits feedStore feed 1 Limits.collection.maxDepth ⟨8, 12, .covariant⟩ d ∧
          Gives feedStore feed d ⟨0, 5, .invariant⟩) ∧
        ¬ Recorded [{ exact := [5] }] 0 5 .contravariant := by
  have hreachable : feedStore.Reachable := (Store.Reachable.ofRoot "object").runAll
    (by decide +kernel : Operation.runAll feedOperations (.ofRoot "object") = some feedStore)
  have hcallable : feedStore.callables[0]? = some feed := by decide +kernel
  have hvalue : feedStore.isValueType 5 = .ok true := by decide +kernel
  have hrun : Collection.collect feedStore feed 8 12 .covariant [{}] =
      .ok (true, [{ exact := [5] }]) := by decide +kernel
  obtain ⟨matched, bounds, found, hcollect, hbounds, hsame, hfound, -⟩ :=
    collect_nested_exact (c := ⟨8, 12, .covariant⟩) hreachable
      (hreachable.lawful.wellFormed.inRange.signatures hcallable) (by decide +kernel)
      (by decide +kernel) (by decide +kernel) [{}]
  obtain ⟨-, rfl⟩ := Prod.mk.inj (Except.ok.inj (hrun.symm.trans hcollect))
  have hempty : ∀ flow, ¬ Recorded [{}] 0 5 flow := by
    rintro flow ⟨set, hset, hmem⟩
    obtain rfl := Option.some.inj hset
    cases flow <;> cases hmem
  refine ⟨hvalue, hrun, ?_,
    (hsame 0 5 .contravariant hvalue (by decide)).not.mpr (hempty .contravariant)⟩
  have hexact : Recorded [{ exact := [5] }] 0 5 .invariant := ⟨_, rfl, List.mem_singleton_self 5⟩
  rw [hbounds, recorded_recordAll, or_iff_right (hempty .invariant)] at hexact
  exact ((hfound _).mp hexact.2).2

end Collection

end NominalGenerics

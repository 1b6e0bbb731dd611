import Mathlib.Data.Finset.Card
import NominalGenerics.NamePool

/-!
# Numbering of names

A name pool keeps a table of numbers beside the list of its names. Over any sequence of calls the
two are inverse to each other: the list holds the names in the order in which they were first
interned, and the table gives each its index, cut to a 32-bit word (`NamePool.Numbered`). While
there are no more names than words nothing is cut, so a number stands for one name and a name has
one number, which later calls do not change (`NamePool.run_numbering`).
-/

namespace NominalGenerics

/-- A list without its repetitions grows at its end by what is new. -/
theorem eraseDups_concat {α : Type} [DecidableEq α] (as : List α) (a : α) :
    (as ++ [a]).eraseDups = if a ∈ as then as.eraseDups else as.eraseDups ++ [a] := by
  rw [List.eraseDups_append]
  split
  · next hmem => simp [List.removeAll, hmem]
  · next hnew => simp [List.removeAll, hnew, List.eraseDups_cons]

namespace NamePool

section Interning

variable {pool : NamePool} {name other : String} {number : Nat}

/-- The two ways to intern a name are one. -/
theorem internOwned_eq (pool : NamePool) (name : String) :
    pool.internOwned name = pool.intern name := rfl

/-- A name that the pool holds keeps its number and the pool; any other is appended. -/
theorem intern_cases (pool : NamePool) (name : String) :
    (∃ number, pool.find? name = some number ∧ pool.intern name = (number, pool)) ∨
      (pool.find? name = none ∧ ∃ number, number = pool.size % numberSpace ∧
        pool.intern name =
          (number, ⟨pool.names.push name, (name, number) :: pool.numbers⟩)) := by
  cases hfind : pool.find? name with
  | some number => exact Or.inl ⟨number, rfl, by rw [intern, hfind]⟩
  | none => exact Or.inr ⟨rfl, _, rfl, by rw [intern, hfind]; rfl⟩

theorem find?_mk_cons (names : Array String) :
    find? ⟨names, (name, number) :: pool.numbers⟩ other =
      if other = name then some number else pool.find? other := by
  rw [find?, List.lookup_cons]
  by_cases h : other = name
  · simp [h]
  · simp [h, find?, beq_eq_false_iff_ne.mpr h]

/-- The number of an interned name can be looked up. -/
theorem find?_intern (pool : NamePool) (name : String) :
    (pool.intern name).2.find? name = some (pool.intern name).1 := by
  rcases intern_cases pool name with ⟨number, hfind, hintern⟩ | ⟨-, number, -, hintern⟩
  · rw [hintern]
    exact hfind
  · rw [hintern, find?_mk_cons, if_pos rfl]

/-- A new name gets the next number, as long as there is one. -/
theorem intern_of_new (hnew : pool.find? name = none) (hroom : pool.size < numberSpace) :
    (pool.intern name).1 = pool.size ∧ (pool.intern name).2.size = pool.size + 1 := by
  rcases intern_cases pool name with ⟨_, hfind, -⟩ | ⟨-, number, rfl, hintern⟩
  · cases hnew.symm.trans hfind
  · rw [hintern]
    exact ⟨Nat.mod_eq_of_lt hroom, Array.size_push _⟩

/-- Interning a name does not change the numbers of others. -/
theorem find?_intern_of_find? (h : pool.find? other = some number) (name : String) :
    (pool.intern name).2.find? other = some number := by
  rcases intern_cases pool name with ⟨_, -, hintern⟩ | ⟨hnew, _, -, hintern⟩
  · rw [hintern]
    exact h
  · have hne : other ≠ name := by
      rintro rfl
      cases h.symm.trans hnew
    rw [hintern, find?_mk_cons, if_neg hne]
    exact h

theorem prefix_intern (pool : NamePool) (name : String) :
    pool.names.toList <+: (pool.intern name).2.names.toList := by
  rcases intern_cases pool name with ⟨_, -, hintern⟩ | ⟨-, _, -, hintern⟩
  · rw [hintern]
  · rw [hintern, Array.toList_push]
    exact List.prefix_append _ _

/-- Interns names one after the other. -/
def internAll (pool : NamePool) (names : List String) : NamePool :=
  names.foldl (fun pool name => (pool.intern name).2) pool

theorem internAll_append (pool : NamePool) (names more : List String) :
    pool.internAll (names ++ more) = (pool.internAll names).internAll more := List.foldl_append

theorem find?_internAll_of_find? (h : pool.find? other = some number) (names : List String) :
    (pool.internAll names).find? other = some number := by
  induction names generalizing pool with
  | nil => exact h
  | cons name names ih => exact ih (find?_intern_of_find? h name)

theorem prefix_internAll (pool : NamePool) (names : List String) :
    pool.names.toList <+: (pool.internAll names).names.toList := by
  induction names generalizing pool with
  | nil => exact List.prefix_refl _
  | cons name names ih => exact (prefix_intern pool name).trans (ih _)

/-- A number that was issued stands for one name forever. -/
theorem resolve_internAll (hnumber : number < pool.size) (names : List String) :
    (pool.internAll names).resolve number = pool.resolve number := by
  obtain ⟨added, hadded⟩ := prefix_internAll pool names
  rw [resolve, resolve, ← Array.getElem?_toList, ← Array.getElem?_toList, ← hadded,
    List.getElem?_append_left (Array.length_toList ▸ hnumber)]

end Interning

theorem getElem?_push_eq_some {names : Array String} {name other : String} {i : Nat} :
    (names.push name)[i]? = some other ↔
      i = names.size ∧ name = other ∨ names[i]? = some other := by
  rw [Array.getElem?_push]
  split
  · next hlast => simp [hlast]
  · next hlast => simp [hlast]

/-- The pool has numbered the names that it has seen in the order of their first occurrences, and
the table and the list agree on it. -/
structure Numbered (seen : List String) (pool : NamePool) : Prop where
  names : pool.names.toList = seen.eraseDups
  nodup : pool.names.toList.Nodup
  numbers : ∀ name number, pool.find? name = some number ↔
    ∃ i, pool.names[i]? = some name ∧ number = i % numberSpace

namespace Numbered

variable {seen : List String} {pool : NamePool} {name : String} {number : Nat}

theorem mem_seen (h : Numbered seen pool) : name ∈ pool.names.toList ↔ name ∈ seen := by
  rw [h.names, List.mem_eraseDups]

theorem find?_eq_none (h : Numbered seen pool) : pool.find? name = none ↔ name ∉ seen := by
  rw [← h.mem_seen, Array.mem_toList_iff]
  constructor
  · intro hnone hmem
    obtain ⟨i, hi⟩ := Array.getElem?_of_mem hmem
    have hfind := (h.numbers name _).mpr ⟨i, hi, rfl⟩
    cases hnone.symm.trans hfind
  · intro hnew
    refine Option.eq_none_iff_forall_ne_some.mpr fun number hfind => hnew ?_
    obtain ⟨i, hi, -⟩ := (h.numbers name number).mp hfind
    exact Array.mem_of_getElem? hi

/-- A name that is new to the pool is listed and tabled under the next number. -/
theorem push (h : Numbered seen pool) (hnew : name ∉ seen)
    (hnumber : number = pool.size % numberSpace) :
    Numbered (seen ++ [name]) ⟨pool.names.push name, (name, number) :: pool.numbers⟩ where
  names := by rw [Array.toList_push, h.names, eraseDups_concat, if_neg hnew]
  nodup := by
    rw [Array.toList_push, ← List.concat_eq_append]
    exact h.nodup.concat (mt h.mem_seen.mp hnew)
  numbers other number' := by
    have hlisted : (∃ i, (pool.names.push name)[i]? = some other ∧ number' = i % numberSpace) ↔
        (name = other ∧ number' = number) ∨ pool.find? other = some number' := by
      simp only [getElem?_push_eq_some, or_and_right, exists_or, and_assoc, exists_eq_left,
        h.numbers, hnumber, size]
    rw [find?_mk_cons, hlisted]
    split
    · next heq => simp [heq, h.find?_eq_none.mpr hnew, eq_comm]
    · next hne => simp [Ne.symm hne]

/-- The empty name is the first that a pool lists. -/
theorem empty : Numbered [""] NamePool.empty := by
  have hnothing : Numbered [] ⟨#[], []⟩ := ⟨rfl, List.nodup_nil, by simp [find?]⟩
  exact hnothing.push List.not_mem_nil rfl

theorem intern (h : Numbered seen pool) (name : String) :
    Numbered (seen ++ [name]) (pool.intern name).2 := by
  rcases intern_cases pool name with ⟨number, hfind, hintern⟩ | ⟨hnone, number, hnumber, hintern⟩
  · have hmem : name ∈ seen := by
      by_contra hnew
      cases hfind.symm.trans (h.find?_eq_none.mpr hnew)
    rw [hintern]
    refine ⟨?_, h.nodup, h.numbers⟩
    rw [eraseDups_concat, if_pos hmem]
    exact h.names
  · rw [hintern]
    exact h.push (h.find?_eq_none.mp hnone) hnumber

theorem internAll (h : Numbered seen pool) (names : List String) :
    Numbered (seen ++ names) (pool.internAll names) := by
  induction names generalizing seen pool with
  | nil => exact (List.append_nil seen).symm ▸ h
  | cons name names ih =>
      rw [List.append_cons]
      exact ih (h.intern name)

/-- The pool holds each name that it has seen once. -/
theorem size_eq (h : Numbered seen pool) : pool.size = seen.toFinset.card := by
  have hsame : seen.toFinset = pool.names.toList.toFinset := by
    ext name
    simp only [List.mem_toFinset, h.mem_seen]
  rw [hsame, List.toFinset_card_of_nodup h.nodup, Array.length_toList]
  rfl

/-- While no number is cut, the table is the inverse of the list. -/
theorem find?_eq_some_iff (h : Numbered seen pool) (hroom : pool.size ≤ numberSpace) :
    pool.find? name = some number ↔ number < pool.size ∧ pool.resolve number = name := by
  have huncut : ∀ i < pool.size, i % numberSpace = i := fun i hi =>
    Nat.mod_eq_of_lt (hi.trans_le hroom)
  rw [h.numbers]
  constructor
  · rintro ⟨i, hi, rfl⟩
    obtain ⟨hlt, rfl⟩ := Array.getElem?_eq_some_iff.mp hi
    rw [huncut i hlt]
    exact ⟨hlt, by rw [resolve, hi]; rfl⟩
  · rintro ⟨hlt, rfl⟩
    exact ⟨number, by rw [resolve, Array.getElem?_eq_getElem hlt]; rfl, (huncut number hlt).symm⟩

end Numbered

/-- A call that interns names. -/
inductive Call where
  | intern (name : String)
  | internOwned (name : String)
  | internCommon
  deriving DecidableEq

/-- The names that a call interns, in order. -/
def Call.names : Call → List String
  | .intern name | .internOwned name => [name]
  | .internCommon => commonNames

/-- The names that are interned by calls, in order. -/
def interned (calls : List Call) : List String := calls.flatMap Call.names

/-- Makes a call. Its answers are the names that it asks for with their numbers; the common names
are interned without an answer. -/
def perform (pool : NamePool) : Call → List (String × Nat) × NamePool
  | .intern name => ([(name, (pool.intern name).1)], (pool.intern name).2)
  | .internOwned name => ([(name, (pool.internOwned name).1)], (pool.internOwned name).2)
  | .internCommon => ([], pool.internCommon)

/-- Makes calls one after the other, and collects their answers. -/
def run (pool : NamePool) : List Call → List (String × Nat) × NamePool
  | [] => ([], pool)
  | call :: calls =>
      let (answers, pool) := pool.perform call
      let (later, pool) := pool.run calls
      (answers ++ later, pool)

section Runs

variable {pool : NamePool} {name : String} {number : Nat}

theorem perform_pool (pool : NamePool) (call : Call) :
    (pool.perform call).2 = pool.internAll call.names := by
  cases call with
  | intern name => rfl
  | internOwned name =>
      rw [perform, internOwned_eq]
      rfl
  | internCommon => rw [perform, internCommon, Call.names, internAll]

theorem find?_of_mem_perform {call : Call} (h : (name, number) ∈ (pool.perform call).1) :
    (pool.perform call).2.find? name = some number := by
  cases call with
  | intern other =>
      cases List.mem_singleton.mp h
      exact find?_intern pool name
  | internOwned other =>
      rw [perform, internOwned_eq] at h ⊢
      cases List.mem_singleton.mp h
      exact find?_intern pool name
  | internCommon => cases h

/-- A run interns the names of its calls. -/
theorem run_pool (pool : NamePool) (calls : List Call) :
    (pool.run calls).2 = pool.internAll (interned calls) := by
  induction calls generalizing pool with
  | nil => rfl
  | cons call calls ih =>
      rw [interned, List.flatMap_cons, internAll_append, ← perform_pool]
      exact ih _

/-- The number that a name was answered is its number from then on. -/
theorem find?_of_mem_run {calls : List Call} (h : (name, number) ∈ (pool.run calls).1) :
    (pool.run calls).2.find? name = some number := by
  induction calls generalizing pool with
  | nil => cases h
  | cons call calls ih =>
      rcases List.mem_append.mp h with hnow | hlater
      · have hfind := find?_internAll_of_find? (find?_of_mem_perform hnow) (interned calls)
        rwa [← run_pool] at hfind
      · exact ih hlater

theorem numbered_run (calls : List Call) :
    Numbered ("" :: interned calls) (empty.run calls).2 := by
  rw [run_pool]
  exact Numbered.empty.internAll (interned calls)

end Runs

/-- What holds of the answers to calls on a pool that is new, and of the pool after them. -/
structure Numbering (calls : List Call) (answers : List (String × Nat)) (pool : NamePool) :
    Prop where
  /-- Each number that was answered still stands for the name that was asked for. -/
  answered : ∀ name number, (name, number) ∈ answers → pool.resolve number = name
  /-- Names have the same number only if they are the same. -/
  injective : ∀ name number name' number', (name, number) ∈ answers → (name', number') ∈ answers →
    (number = number' ↔ name = name')
  /-- Looking a name up is the inverse of resolving a number. -/
  inverse : ∀ name number, pool.find? name = some number ↔
    number < pool.size ∧ pool.resolve number = name
  /-- It does not matter whether a name is handed over. -/
  owned : ∀ name, pool.internOwned name = pool.intern name
  /-- No later calls change what a number stands for. -/
  stable : ∀ later number, number < pool.size →
    (pool.run later).2.resolve number = pool.resolve number
  /-- A new name gets the next number, as long as there is one. -/
  next : ∀ name, pool.find? name = none → pool.size < numberSpace →
    (pool.intern name).1 = pool.size ∧ (pool.intern name).2.size = pool.size + 1
  /-- Numbers are issued in the order in which the names first occur. -/
  order : pool.names.toList = ("" :: interned calls).eraseDups
  /-- The empty name and those that were interned are counted, each once. -/
  size : pool.size = (insert "" (interned calls).toFinset).card

/-- A pool is a stable bijection between the names that were interned and the numbers below its
size, whatever the calls, as long as there are no more names than 32-bit words. -/
theorem run_numbering (calls : List Call)
    (hroom : (insert "" (interned calls).toFinset).card ≤ numberSpace) :
    Numbering calls (empty.run calls).1 (empty.run calls).2 := by
  have h := numbered_run calls
  have hsize : (empty.run calls).2.size = (insert "" (interned calls).toFinset).card := by
    rw [h.size_eq, List.toFinset_cons]
  have hinverse : ∀ name number, (empty.run calls).2.find? name = some number ↔
      number < (empty.run calls).2.size ∧ (empty.run calls).2.resolve number = name :=
    fun name number => h.find?_eq_some_iff (hsize ▸ hroom)
  have hanswered : ∀ name number, (name, number) ∈ (empty.run calls).1 →
      (empty.run calls).2.resolve number = name :=
    fun name number hmem => ((hinverse name number).mp (find?_of_mem_run hmem)).2
  refine ⟨hanswered, ?_, hinverse, internOwned_eq _, ?_, fun _ => intern_of_new, h.names, hsize⟩
  · intro name number name' number' hmem hmem'
    constructor
    · rintro rfl
      exact (hanswered name number hmem).symm.trans (hanswered name' number hmem')
    · rintro rfl
      exact Option.some.inj ((find?_of_mem_run hmem).symm.trans (find?_of_mem_run hmem'))
  · intro later number hnumber
    rw [run_pool _ later]
    exact resolve_internAll hnumber _

/-- Names that are common, repeated, empty or new. -/
def mixedCalls : List Call :=
  [.intern "List", .internCommon, .internOwned "List", .intern "", .internOwned "Dictionary"]

theorem run_numbering_mixed : (insert "" (interned mixedCalls).toFinset).card ≤ numberSpace ∧
    (empty.run mixedCalls).1 = [("List", 1), ("List", 1), ("", 0), ("Dictionary", 24)] ∧
    (empty.run mixedCalls).2.resolve 24 = "Dictionary" ∧
    (empty.run mixedCalls).2.find? "List" = some 1 ∧
    (empty.run mixedCalls).2.size = 25 := by
  have hroom : (insert "" (interned mixedCalls).toFinset).card ≤ numberSpace := by decide +kernel
  have hanswers : (empty.run mixedCalls).1 =
      [("List", 1), ("List", 1), ("", 0), ("Dictionary", 24)] := by decide +kernel
  have h := run_numbering mixedCalls hroom
  refine ⟨hroom, hanswers, h.answered "Dictionary" 24 (by simp [hanswers]), ?_, ?_⟩
  · have hsize : 1 < (empty.run mixedCalls).2.size := by decide +kernel
    exact (h.inverse "List" 1).mpr ⟨hsize, h.answered "List" 1 (by simp [hanswers])⟩
  · rw [h.size]
    decide +kernel

end NamePool

end NominalGenerics

import Mathlib.Data.List.AList
import Mathlib.Data.List.Sort

/-!
# Association lists as hash maps

What a program does with a map whose order it may not rely on: change every value, list the
entries by key, build a map from a list.
-/

namespace Replog.Library

universe u v w

/-- A map with keys of one type and values of another. -/
abbrev Assoc (α : Type u) (β : Type v) := AList fun _ : α => β

namespace Assoc

variable {α : Type u} {β : Type v} {γ : Type w}

def mapVal (m : Assoc α β) (f : α → β → γ) : Assoc α γ where
  entries := m.entries.map (.map id f)
  nodupKeys := m.nodupKeys.map₂ f m.entries

section DecidableEq

variable [DecidableEq α]

@[simp] theorem lookup_mapVal (m : Assoc α β) (f : α → β → γ) (a : α) :
    (mapVal m f).lookup a = (m.lookup a).map (f a) :=
  List.dlookup_map₂ a

/-- A later entry of the list replaces an earlier one with its key. -/
def ofList (l : List (α × β)) : Assoc α β :=
  l.foldl (fun m e => m.insert e.1 e.2) ∅

private theorem lookup_foldl_insert {l : List (α × β)} (hnodup : (l.map Prod.fst).Nodup)
    (m : Assoc α β) (a : α) (b : β) :
    (l.foldl (fun m e => m.insert e.1 e.2) m).lookup a = some b ↔
      (a, b) ∈ l ∨ a ∉ l.map Prod.fst ∧ m.lookup a = some b := by
  induction l generalizing m with
  | nil => simp
  | cons e l ih =>
    obtain ⟨hnew, hrest⟩ := List.nodup_cons.mp hnodup
    rw [List.foldl_cons, ih hrest]
    by_cases ha : a = e.1
    · subst ha
      have hb : (e.1, b) ∉ l := fun h => hnew (List.mem_map.mpr ⟨_, h, rfl⟩)
      simp [hb, hnew, Prod.ext_iff, eq_comm]
    · simp [ha, Prod.ext_iff, AList.lookup_insert_ne ha]

/-- Nothing is found that the list does not hold. -/
theorem mem_of_lookup_ofList {l : List (α × β)} {a : α} {b : β}
    (h : (ofList l).lookup a = some b) : (a, b) ∈ l := by
  have hfold : ∀ m : Assoc α β, (l.foldl (fun m e => m.insert e.1 e.2) m).lookup a = some b →
      (a, b) ∈ l ∨ m.lookup a = some b := by
    clear h
    induction l with
    | nil => exact fun m hm => .inr hm
    | cons e l ih =>
      intro m hm
      rcases ih _ hm with hmem | hlookup
      · exact .inl (List.mem_cons_of_mem _ hmem)
      · by_cases ha : a = e.1
        · rw [ha, AList.lookup_insert, Option.some.injEq] at hlookup
          rw [ha, ← hlookup]
          exact .inl List.mem_cons_self
        · rw [AList.lookup_insert_ne ha] at hlookup
          exact .inr hlookup
  exact (hfold ∅ h).resolve_right nofun

theorem lookup_ofList {l : List (α × β)} (hnodup : (l.map Prod.fst).Nodup) (a : α) (b : β) :
    (ofList l).lookup a = some b ↔ (a, b) ∈ l := by
  rw [ofList, lookup_foldl_insert hnodup]
  simp

/-- Changing the values of the list is changing the values found. -/
theorem lookup_ofList_map (l : List (α × β)) (f : β → γ) (a : α) :
    (ofList (l.map fun e => (e.1, f e.2))).lookup a = ((ofList l).lookup a).map f := by
  rw [ofList, ofList, List.foldl_map]
  have hstart : (∅ : Assoc α γ).lookup a = ((∅ : Assoc α β).lookup a).map f := rfl
  revert hstart
  generalize (∅ : Assoc α γ) = m
  generalize (∅ : Assoc α β) = m'
  induction l generalizing m m' with
  | nil => exact id
  | cons e l ih =>
    intro hstart
    refine ih _ _ ?_
    by_cases ha : a = e.1
    · rw [ha, AList.lookup_insert, AList.lookup_insert, Option.map_some]
    · rw [AList.lookup_insert_ne ha, AList.lookup_insert_ne ha, hstart]

end DecidableEq

section Sorted

variable [LE α] [DecidableLE α]

/-- The entries in the order of their keys. -/
def sorted (m : Assoc α β) : List (α × β) :=
  (m.entries.map fun e => (e.1, e.2)).insertionSort fun e d => e.1 ≤ d.1

theorem sorted_mapVal (m : Assoc α β) (f : α → β → γ) :
    (mapVal m f).sorted = m.sorted.map fun e => (e.1, f e.1 e.2) := by
  rw [sorted, sorted, List.map_insertionSort (fun e d : α × β => e.1 ≤ d.1)
    (fun e d : α × γ => e.1 ≤ d.1) (fun e => (e.1, f e.1 e.2)) _ fun _ _ _ _ => Iff.rfl]
  simp [mapVal, Function.comp_def, Sigma.map]

theorem nodup_sorted (m : Assoc α β) : (m.sorted.map Prod.fst).Nodup := by
  have hperm := (List.perm_insertionSort (fun e d : α × β => e.1 ≤ d.1)
    (m.entries.map fun e => (e.1, e.2))).map Prod.fst
  refine hperm.nodup_iff.mpr ?_
  rw [List.map_map]
  exact m.nodupKeys

theorem pairwise_sorted [@Std.Total α (· ≤ ·)] [IsTrans α (· ≤ ·)] (m : Assoc α β) :
    m.sorted.Pairwise fun e d => e.1 ≤ d.1 := by
  have : Std.Total fun e d : α × β => e.1 ≤ d.1 := ⟨fun e d => Std.Total.total e.1 d.1⟩
  have : IsTrans (α × β) fun e d => e.1 ≤ d.1 := ⟨fun _ _ _ => IsTrans.trans _ _ _⟩
  exact List.pairwise_insertionSort _ _

variable [DecidableEq α]

theorem mem_sorted {m : Assoc α β} {a : α} {b : β} : (a, b) ∈ m.sorted ↔ m.lookup a = some b := by
  rw [sorted, List.mem_insertionSort, ← Option.mem_def, AList.mem_lookup_iff, List.mem_map]
  constructor
  · rintro ⟨e, he, heq⟩
    cases heq
    exact he
  · exact fun h => ⟨_, h, rfl⟩

/-- Building the map again from its sorted entries changes no lookup. -/
theorem lookup_ofList_sorted (m : Assoc α β) (a : α) : (ofList m.sorted).lookup a = m.lookup a := by
  refine Option.ext fun b => ?_
  rw [lookup_ofList m.nodup_sorted, mem_sorted]

/-- The sorted entries depend on the lookups only. -/
theorem sorted_congr [@Std.Total α (· ≤ ·)] [IsTrans α (· ≤ ·)] [@Std.Antisymm α (· ≤ ·)]
    {m m' : Assoc α β} (h : ∀ a, m.lookup a = m'.lookup a) : m.sorted = m'.sorted := by
  refine List.Perm.eq_of_pairwise ?_ m.pairwise_sorted m'.pairwise_sorted ?_
  · rintro ⟨a, b⟩ ⟨a', b'⟩ hmem hmem' hle hle'
    obtain rfl : a = a' := Std.Antisymm.antisymm _ _ hle hle'
    have hb := mem_sorted.mp hmem
    rw [h, mem_sorted.mp hmem'] at hb
    rw [Option.some.inj hb]
  · refine (List.perm_insertionSort _ _).trans (.trans ?_ (List.perm_insertionSort _ _).symm)
    refine (List.lookup_ext m.nodupKeys m'.nodupKeys fun a b => ?_).map _
    change b ∈ m.lookup a ↔ b ∈ m'.lookup a
    rw [h]

end Sorted

end Assoc
end Replog.Library

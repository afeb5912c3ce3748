import Replog.Library.AssocList
import Mathlib.Algebra.BigOperators.Group.List.Lemmas
import Mathlib.Algebra.GroupWithZero.Nat
import Mathlib.Data.List.Dedup
import Mathlib.Data.List.Induction

/-!
# Maps filled in one pass over a list

Each item updates the entry of its key, if there is one, and creates it otherwise. The entry of a
key only depends on the items with that key.
-/

namespace Replog.Library.Assoc

universe u v w

variable {α : Type u} {β : Type v} {γ : Type w} [DecidableEq α]
variable (key : γ → α) (upd : Option β → γ → β)

def tabulate (l : List γ) : Assoc α β :=
  l.foldl (fun m c => m.insert (key c) (upd (m.lookup (key c)) c)) ∅

theorem tabulate_append_singleton (l : List γ) (c : γ) :
    tabulate key upd (l ++ [c]) = (tabulate key upd l).insert (key c)
      (upd ((tabulate key upd l).lookup (key c)) c) := by
  rw [tabulate, List.foldl_append]
  rfl

theorem lookup_tabulate (l : List γ) (a : α) :
    (tabulate key upd l).lookup a =
      (l.filter (key · = a)).foldl (fun entry c => some (upd entry c)) none := by
  induction l using List.reverseRecOn with
  | nil => rfl
  | append_singleton l c ih =>
    rw [tabulate_append_singleton, List.filter_append, List.foldl_append]
    by_cases ha : key c = a
    · subst ha
      rw [AList.lookup_insert, ih]
      simp
    · rw [AList.lookup_insert_ne (Ne.symm ha), ih]
      simp [ha]

theorem isSome_foldl_some (l : List γ) (entry : Option β) (h : entry.isSome ∨ l ≠ []) :
    (l.foldl (fun entry c => some (upd entry c)) entry).isSome := by
  induction l generalizing entry with
  | nil => simpa using h
  | cons c l ih => exact ih _ (.inl rfl)

/-- The keys are those of the items. -/
theorem isSome_lookup_tabulate {l : List γ} {a : α} :
    ((tabulate key upd l).lookup a).isSome ↔ ∃ c ∈ l, key c = a := by
  rw [lookup_tabulate]
  constructor
  · intro h
    by_contra hnone
    have hnil : l.filter (key · = a) = [] := by
      rw [List.filter_eq_nil_iff]
      exact fun c hc heq => hnone ⟨c, hc, by simpa using heq⟩
    rw [hnil] at h
    cases h
  · rintro ⟨c, hc, heq⟩
    refine isSome_foldl_some upd _ _ (.inr ?_)
    exact List.ne_nil_of_mem (List.mem_filter.mpr ⟨hc, by simpa using heq⟩)

/-- Without regard for the old entry the last item counts. -/
theorem lookup_tabulate_last (val : γ → β) (l : List γ) (a : α) :
    (tabulate key (fun _ c => val c) l).lookup a =
      ((l.filter (key · = a)).getLast?).map val := by
  rw [lookup_tabulate]
  generalize l.filter (key · = a) = l'
  induction l' using List.reverseRecOn with
  | nil => rfl
  | append_singleton l' c _ => simp

/-! ## Counting -/

/-- How many items have each key. -/
def counts (l : List γ) : Assoc α ℕ := tabulate key (fun n _ => n.getD 0 + 1) l

theorem lookup_counts (l : List γ) (a : α) :
    (counts key l).lookup a = if a ∈ l.map key then some ((l.map key).count a) else none := by
  have hfold : ∀ l' : List γ, l'.foldl (fun (entry : Option ℕ) _ => some (entry.getD 0 + 1)) none =
      if l' = [] then none else some l'.length := by
    intro l'
    induction l' using List.reverseRecOn with
    | nil => rfl
    | append_singleton l' c ih =>
      rw [List.foldl_append, ih]
      cases l' <;> simp
  rw [counts, lookup_tabulate, hfold]
  have hlen : (l.filter (key · = a)).length = (l.map key).count a := by
    rw [List.count, List.countP_map, List.countP_eq_length_filter]
    rfl
  by_cases ha : a ∈ l.map key
  · rw [if_pos ha, hlen, if_neg]
    rw [List.filter_eq_nil_iff, not_forall]
    obtain ⟨c, hc, rfl⟩ := List.mem_map.mp ha
    exact ⟨c, by simp [hc]⟩
  · rw [if_neg ha, if_pos]
    rw [List.filter_eq_nil_iff]
    exact fun c hc heq => ha (List.mem_map.mpr ⟨c, hc, by simpa using heq⟩)

theorem mem_counts {l : List γ} {a : α} : a ∈ counts key l ↔ a ∈ l.map key := by
  rw [← AList.lookup_isSome, lookup_counts]
  by_cases ha : a ∈ l.map key <;> simp [ha]

/-- The keys of a pass are the distinct keys of the items. -/
theorem keys_counts_perm (l : List γ) : (counts key l).keys.Perm (l.map key).dedup := by
  refine (List.perm_ext_iff_of_nodup (counts key l).keys_nodup (List.nodup_dedup _)).mpr ?_
  intro a
  rw [List.mem_dedup, ← mem_counts]
  exact AList.mem_keys.symm

theorem length_entries_counts (l : List γ) :
    (counts key l).entries.length = (l.map key).dedup.length := by
  rw [← (keys_counts_perm key l).length_eq, AList.keys, List.keys, List.length_map]

/-- What comes on top of the first item of each key. -/
theorem sum_counts_sub_one (l : List γ) :
    ((counts key l).entries.map fun e => e.2 - 1).sum = l.length - (l.map key).dedup.length := by
  have hentries : ((counts key l).entries.map fun e => e.2 - 1) =
      (counts key l).keys.map fun a => (l.map key).count a - 1 := by
    rw [AList.keys, List.keys, List.map_map]
    refine List.map_congr_left fun e he => ?_
    have hlookup := AList.mem_lookup_iff.mpr he
    rw [lookup_counts] at hlookup
    split at hlookup
    · rw [Option.mem_def, Option.some.injEq] at hlookup
      rw [Function.comp_apply, hlookup]
    · cases hlookup
  rw [hentries, ((keys_counts_perm key l).map _).sum_eq]
  have hpos : ∀ a ∈ (l.map key).dedup, (l.map key).count a = (l.map key).count a - 1 + 1 := by
    intro a ha
    have := List.count_pos_iff.mpr (List.mem_dedup.mp ha)
    omega
  have htotal := List.sum_map_count_dedup_eq_length (l.map key)
  rw [List.map_congr_left hpos, List.sum_map_add, List.length_map] at htotal
  simp only [List.map_const', List.sum_replicate_nat, mul_one] at htotal
  omega

end Replog.Library.Assoc

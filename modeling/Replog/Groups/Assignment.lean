import Replog.Library.AssocList
import Mathlib.Data.List.Dedup
import Mathlib.Data.String.Basic

/-!
# Range assignment

For each topic its partitions in order are chunked across the subscribed members in member-id
order, the remainder to the front. No two members are ever handed one partition.
-/

namespace Replog.Groups
open Replog.Library

structure Member where
  topics : List String
  /-- In milliseconds, as the clock of the heartbeats. -/
  sessionTimeout : ℕ
  lastHeartbeat : ℕ

/-- The (topic, partition) slots of each member. -/
abbrev Slots := Assoc String (List (String × ℕ))

/-- Hands the partitions from `next` on to the `i`th and later subscribed members. -/
def share (topic : String) (per extra : ℕ) : ℕ → ℕ → List String → Slots → Slots
  | _, _, [], out => out
  | i, next, member :: rest, out =>
    let take := per + if i < extra then 1 else 0
    let slots := (out.lookup member).getD [] ++ (List.range' next take).map fun p => (topic, p)
    share topic per extra (i + 1) (next + take) rest (out.insert member slots)

/-- The members that subscribe to a topic, by id. -/
def subscribed (members : Assoc String Member) (topic : String) : List String :=
  (members.sorted.filter fun m => topic ∈ m.2.topics).map Prod.fst

/-- All topics of the members, each once, in order. -/
def allTopics (members : Assoc String Member) : List String :=
  ((members.entries.flatMap fun m => m.2.topics).insertionSort (· ≤ ·)).dedup

def assignTopic (members : Assoc String Member) (counts : String → Option ℕ) (out : Slots)
    (topic : String) : Slots :=
  match counts topic with
  | none => out
  | some partitions =>
    let ids := subscribed members topic
    if ids = [] then out
    else share topic (partitions / ids.length) (partitions % ids.length) 0 0 ids out

def assign (members : Assoc String Member) (counts : String → Option ℕ) : Slots :=
  (allTopics members).foldl (assignTopic members counts) (members.mapVal fun _ _ => [])

def Owns (out : Slots) (m : String) (slot : String × ℕ) : Prop :=
  ∃ slots, out.lookup m = some slots ∧ slot ∈ slots

def Exclusive (out : Slots) : Prop :=
  ∀ m m' slot, Owns out m slot → Owns out m' slot → m = m'

variable {topic : String} {per extra : ℕ} {out : Slots}

theorem owns_insert {member m : String} {next take : ℕ} {slot : String × ℕ} :
    Owns (out.insert member ((out.lookup member).getD [] ++
        (List.range' next take).map fun p => (topic, p))) m slot ↔
      Owns out m slot ∨
        m = member ∧ slot.1 = topic ∧ next ≤ slot.2 ∧ slot.2 < next + take := by
  by_cases hm : m = member
  · subst hm
    have hnew : slot ∈ (List.range' next take).map (fun p => (topic, p)) ↔
        slot.1 = topic ∧ next ≤ slot.2 ∧ slot.2 < next + take := by
      rw [List.mem_map]
      constructor
      · rintro ⟨p, hp, rfl⟩
        exact ⟨rfl, List.mem_range'_1.mp hp⟩
      · rintro ⟨rfl, hp⟩
        exact ⟨slot.2, List.mem_range'_1.mpr hp, rfl⟩
    have hold : slot ∈ (out.lookup m).getD [] ↔ Owns out m slot := by
      cases h : out.lookup m <;> simp [Owns, h]
    simp only [Owns, AList.lookup_insert, Option.some.injEq, exists_eq_left', List.mem_append, hnew]
    rw [hold]
    simp [Owns]
  · simp [Owns, AList.lookup_insert_ne hm, hm]

private theorem exclusive_share {i next : ℕ} {ids : List String} (hex : Exclusive out)
    (hbelow : ∀ m slot, Owns out m slot → slot.1 = topic → slot.2 < next) :
    Exclusive (share topic per extra i next ids out) := by
  induction ids generalizing i next out with
  | nil => exact hex
  | cons member rest ih =>
    refine ih ?_ ?_
    · intro m m' slot hm hm'
      rcases owns_insert.mp hm with hold | ⟨hmember, htopic, hge, hlt⟩
      · rcases owns_insert.mp hm' with hold' | ⟨-, htopic, hge, hlt⟩
        · exact hex m m' slot hold hold'
        · exact absurd (hbelow m slot hold htopic) (by omega)
      · rcases owns_insert.mp hm' with hold' | ⟨hmember', -⟩
        · exact absurd (hbelow m' slot hold' htopic) (by omega)
        · exact hmember.trans hmember'.symm
    · intro m slot hm htopic
      rcases owns_insert.mp hm with hm | ⟨-, -, -, hlt⟩
      · exact (hbelow m slot hm htopic).trans_le (Nat.le_add_right ..)
      · exact hlt

private theorem owns_share {i next : ℕ} {ids : List String} {m : String} {slot : String × ℕ}
    (h : Owns (share topic per extra i next ids out) m slot) :
    Owns out m slot ∨ slot.1 = topic := by
  induction ids generalizing i next out with
  | nil => exact .inl h
  | cons member rest ih =>
    rcases ih h with h | h
    · rcases owns_insert.mp h with h | ⟨-, htopic, -⟩
      · exact .inl h
      · exact .inr htopic
    · exact .inr h

variable {members : Assoc String Member} {counts : String → Option ℕ}

private theorem exclusive_assignTopic (hex : Exclusive out)
    (hnew : ∀ m slot, Owns out m slot → slot.1 ≠ topic) :
    Exclusive (assignTopic members counts out topic) := by
  rw [assignTopic]
  split
  · exact hex
  · dsimp only
    split
    · exact hex
    · exact exclusive_share hex fun m slot hm htopic => absurd htopic (hnew m slot hm)

private theorem owns_assignTopic {m : String} {slot : String × ℕ}
    (h : Owns (assignTopic members counts out topic) m slot) :
    Owns out m slot ∨ slot.1 = topic := by
  rw [assignTopic] at h
  split at h
  · exact .inl h
  · dsimp only at h
    split at h
    · exact .inl h
    · exact owns_share h

private theorem exclusive_foldl {topics : List String} (hnodup : topics.Nodup) (hex : Exclusive out)
    (hnew : ∀ m slot, Owns out m slot → slot.1 ∉ topics) :
    Exclusive (topics.foldl (assignTopic members counts) out) := by
  induction topics generalizing out with
  | nil => exact hex
  | cons topic topics ih =>
    obtain ⟨hfresh, hrest⟩ := List.nodup_cons.mp hnodup
    refine ih hrest (exclusive_assignTopic hex fun m slot hm heq =>
      hnew m slot hm (heq ▸ List.mem_cons_self)) ?_
    intro m slot hm
    rcases owns_assignTopic hm with hm | htopic
    · exact fun hmem => hnew m slot hm (List.mem_cons_of_mem _ hmem)
    · exact htopic ▸ hfresh

/-- An assignment gives no partition to two members. -/
theorem exclusive_assign (members : Assoc String Member) (counts : String → Option ℕ) :
    Exclusive (assign members counts) := by
  have hempty : ∀ m slot, ¬ Owns (members.mapVal fun _ _ => []) m slot := by
    rintro m slot ⟨slots, hslots, hmem⟩
    rw [Assoc.lookup_mapVal, Option.map_eq_some_iff] at hslots
    obtain ⟨-, -, rfl⟩ := hslots
    cases hmem
  exact exclusive_foldl (List.nodup_dedup _) (fun m _ slot hm => absurd hm (hempty m slot))
    fun m slot hm => absurd hm (hempty m slot)

/-! ## Coverage -/

/-- How many partitions `share` hands out to `len` members from the `i`th on. -/
def shareTotal (per extra i len : ℕ) : ℕ := per * len + (min extra (i + len) - min extra i)

theorem shareTotal_succ (per extra i len : ℕ) :
    shareTotal per extra i (len + 1) =
      (per + if i < extra then 1 else 0) + shareTotal per extra (i + 1) len := by
  rw [shareTotal, shareTotal, Nat.mul_succ]
  split <;> omega

theorem shareTotal_div_mod {partitions len : ℕ} (hlen : 0 < len) :
    shareTotal (partitions / len) (partitions % len) 0 len = partitions := by
  have hextra := Nat.mod_lt partitions hlen
  have hdiv := Nat.div_add_mod' partitions len
  rw [shareTotal]
  omega

theorem owns_share_of_owns {i next : ℕ} {ids : List String} {m : String} {slot : String × ℕ}
    (h : Owns out m slot) : Owns (share topic per extra i next ids out) m slot := by
  induction ids generalizing i next out with
  | nil => exact h
  | cons member rest ih => exact ih (owns_insert.mpr (.inl h))

private theorem bounds_of_owns_share {i next : ℕ} {ids : List String} {m : String} {slot : String × ℕ}
    (h : Owns (share topic per extra i next ids out) m slot) :
    Owns out m slot ∨ slot.1 = topic ∧ m ∈ ids ∧ next ≤ slot.2 ∧
      slot.2 < next + shareTotal per extra i ids.length := by
  induction ids generalizing i next out with
  | nil => exact .inl h
  | cons member rest ih =>
    rw [List.length_cons, shareTotal_succ]
    rcases ih h with h | ⟨htopic, hm, hge, hlt⟩
    · rcases owns_insert.mp h with h | ⟨rfl, htopic, hge, hlt⟩
      · exact .inl h
      · exact .inr ⟨htopic, List.mem_cons_self, hge, by omega⟩
    · exact .inr ⟨htopic, List.mem_cons_of_mem _ hm, by omega, by omega⟩

private theorem exists_owns_share {i next p : ℕ} {ids : List String} (hge : next ≤ p)
    (hlt : p < next + shareTotal per extra i ids.length) :
    ∃ m, Owns (share topic per extra i next ids out) m (topic, p) := by
  induction ids generalizing i next out with
  | nil =>
    rw [List.length_nil, shareTotal] at hlt
    omega
  | cons member rest ih =>
    rw [List.length_cons, shareTotal_succ] at hlt
    by_cases hfirst : p < next + (per + if i < extra then 1 else 0)
    · refine ⟨member, ?_⟩
      rw [share]
      exact owns_share_of_owns (owns_insert.mpr (.inr ⟨rfl, rfl, hge, hfirst⟩))
    · exact ih (Nat.not_lt.mp hfirst) (by omega)

theorem mem_subscribed {m : String} :
    m ∈ subscribed members topic ↔ ∃ member, members.lookup m = some member ∧
      topic ∈ member.topics := by
  rw [subscribed, List.mem_map]
  constructor
  · rintro ⟨⟨id, member⟩, hmem, rfl⟩
    rw [List.mem_filter, decide_eq_true_eq] at hmem
    exact ⟨member, Assoc.mem_sorted.mp hmem.1, hmem.2⟩
  · rintro ⟨member, hm, htopic⟩
    refine ⟨(m, member), List.mem_filter.mpr ⟨Assoc.mem_sorted.mpr hm, ?_⟩, rfl⟩
    exact decide_eq_true htopic

theorem mem_allTopics_of_subscribed {m : String} (h : m ∈ subscribed members topic) :
    topic ∈ allTopics members := by
  obtain ⟨member, hm, htopic⟩ := mem_subscribed.mp h
  rw [allTopics, List.mem_dedup, List.mem_insertionSort, List.mem_flatMap]
  exact ⟨⟨m, member⟩, AList.mem_lookup_iff.mp (Option.mem_def.mpr hm), htopic⟩

private theorem owns_assignTopic_of_owns {m : String} {slot : String × ℕ} (h : Owns out m slot) :
    Owns (assignTopic members counts out topic) m slot := by
  rw [assignTopic]
  split
  · exact h
  · dsimp only
    split
    · exact h
    · exact owns_share_of_owns h

private theorem bounds_of_owns_assignTopic {m : String} {slot : String × ℕ}
    (h : Owns (assignTopic members counts out topic) m slot) :
    Owns out m slot ∨ slot.1 = topic ∧ m ∈ subscribed members topic ∧
      ∃ n, counts topic = some n ∧ slot.2 < n := by
  rw [assignTopic] at h
  split at h
  · exact .inl h
  · rename_i partitions hcount
    dsimp only at h
    split at h
    · exact .inl h
    · rename_i hne
      rcases bounds_of_owns_share h with h | ⟨htopic, hm, -, hlt⟩
      · exact .inl h
      · rw [shareTotal_div_mod (List.length_pos_of_ne_nil hne), Nat.zero_add] at hlt
        exact .inr ⟨htopic, hm, partitions, hcount, hlt⟩

private theorem exists_owns_assignTopic {n p : ℕ} (hcount : counts topic = some n) (hp : p < n)
    (hne : subscribed members topic ≠ []) :
    ∃ m, Owns (assignTopic members counts out topic) m (topic, p) := by
  rw [assignTopic, hcount]
  dsimp only
  rw [if_neg hne]
  refine exists_owns_share (Nat.zero_le p) ?_
  rwa [shareTotal_div_mod (List.length_pos_of_ne_nil hne), Nat.zero_add]

private theorem owns_foldl_of_owns {topics : List String} {m : String} {slot : String × ℕ}
    (h : Owns out m slot) : Owns (topics.foldl (assignTopic members counts) out) m slot := by
  induction topics generalizing out with
  | nil => exact h
  | cons topic topics ih => exact ih (owns_assignTopic_of_owns h)

private theorem bounds_of_owns_foldl {topics : List String} {m : String} {slot : String × ℕ}
    (h : Owns (topics.foldl (assignTopic members counts) out) m slot) :
    Owns out m slot ∨ m ∈ subscribed members slot.1 ∧ ∃ n, counts slot.1 = some n ∧ slot.2 < n := by
  induction topics generalizing out with
  | nil => exact .inl h
  | cons topic topics ih =>
    rcases ih h with h | h
    · rcases bounds_of_owns_assignTopic h with h | ⟨htopic, h⟩
      · exact .inl h
      · exact .inr (htopic ▸ h)
    · exact .inr h

private theorem exists_owns_foldl {topics : List String} {n p : ℕ} (hmem : topic ∈ topics)
    (hcount : counts topic = some n) (hp : p < n) (hne : subscribed members topic ≠ []) :
    ∃ m, Owns (topics.foldl (assignTopic members counts) out) m (topic, p) := by
  induction topics generalizing out with
  | nil => cases hmem
  | cons topic' topics ih =>
    rw [List.foldl_cons]
    rcases List.mem_cons.mp hmem with rfl | hmem
    · obtain ⟨m, hm⟩ : ∃ m, Owns (assignTopic members counts out topic) m (topic, p) :=
        exists_owns_assignTopic hcount hp hne
      exact ⟨m, owns_foldl_of_owns hm⟩
    · exact ih hmem

/-- Only partitions that were counted are assigned, and only to members that subscribe. -/
theorem bounds_of_owns_assign {m : String} {slot : String × ℕ}
    (h : Owns (assign members counts) m slot) :
    m ∈ subscribed members slot.1 ∧ ∃ n, counts slot.1 = some n ∧ slot.2 < n := by
  refine (bounds_of_owns_foldl h).resolve_left ?_
  rintro ⟨slots, hslots, hmem⟩
  rw [Assoc.lookup_mapVal, Option.map_eq_some_iff] at hslots
  obtain ⟨-, -, rfl⟩ := hslots
  cases hmem

/-- Every partition that was counted of a topic that somebody subscribes to is assigned. -/
theorem exists_owns_assign {m : String} {n p : ℕ} (hm : m ∈ subscribed members topic)
    (hcount : counts topic = some n) (hp : p < n) :
    ∃ m', Owns (assign members counts) m' (topic, p) :=
  exists_owns_foldl (mem_allTopics_of_subscribed hm) hcount hp (List.ne_nil_of_mem hm)

end Replog.Groups

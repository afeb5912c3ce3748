import Replog.Groups.Incarnations

/-!
# The shares of an assignment

Each topic is split into one range of partitions for each subscriber, in member-id order and of
sizes that differ by at most one. The code counts the subscribers and their positions in `u32`s,
so this takes fewer subscribers of a topic than there are of those.
-/

namespace Replog.Groups
open Replog.Library

/-! ## The closed form -/

section ClosedForm

variable {topic : String} {per extra : ℕ} {members : Assoc String Member}
variable {counts : String → Option ℕ} {out : Slots}

/-- What the `i`th subscriber of a topic is handed. -/
def rangeAt (per extra i : ℕ) : List ℕ :=
  List.range' (shareTotal per extra 0 i) (per + if i < extra then 1 else 0)

theorem shareTotal_add (per extra i j len : ℕ) :
    shareTotal per extra i (j + len) =
      shareTotal per extra i j + shareTotal per extra (i + j) len := by
  rw [shareTotal, shareTotal, shareTotal, Nat.mul_add, Nat.add_assoc i j len]
  omega

private theorem lookup_share {i next : ℕ} {ids : List String} (hnodup : ids.Nodup) (m : String) :
    (share topic per extra i next ids out).lookup m =
      if m ∈ ids then
        some ((out.lookup m).getD [] ++ (List.range' (next + shareTotal per extra i (ids.idxOf m))
          (per + if i + ids.idxOf m < extra then 1 else 0)).map fun p => (topic, p))
      else out.lookup m := by
  induction ids generalizing i next out with
  | nil => rfl
  | cons member rest ih =>
    obtain ⟨hfresh, hrest⟩ := List.nodup_cons.mp hnodup
    rw [share, ih hrest]
    by_cases hm : m = member
    · subst hm
      rw [if_neg hfresh, if_pos List.mem_cons_self, AList.lookup_insert, List.idxOf_cons_self,
        shareTotal]
      simp
    · rw [AList.lookup_insert_ne hm]
      by_cases hrest : m ∈ rest
      · rw [if_pos hrest, if_pos (List.mem_cons_of_mem member hrest),
          List.idxOf_cons_ne rest (Ne.symm hm), shareTotal_succ, Nat.add_assoc next,
          Nat.add_right_comm i 1, Nat.add_assoc i]
      · rw [if_neg hrest, if_neg (List.not_mem_cons_of_ne_of_not_mem hm hrest)]

/-- The partitions of a topic that a member gets. -/
def chunk (members : Assoc String Member) (counts : String → Option ℕ) (topic m : String) :
    List ℕ :=
  match counts topic with
  | none => []
  | some partitions =>
    let ids := subscribed members topic
    if m ∈ ids then
      rangeAt (partitions / ids.length) (partitions % ids.length) (ids.idxOf m)
    else []

theorem nodup_subscribed (members : Assoc String Member) (topic : String) :
    (subscribed members topic).Nodup :=
  (List.filter_sublist.map Prod.fst).nodup members.nodup_sorted

private theorem lookup_assignTopic (hmembers : ∀ m ∈ subscribed members topic, m ∈ out) (m : String) :
    (assignTopic members counts out topic).lookup m =
      (out.lookup m).map (· ++ (chunk members counts topic m).map fun p => (topic, p)) := by
  rw [assignTopic, chunk]
  cases counts topic with
  | none => simp
  | some partitions =>
    dsimp only
    by_cases hnil : subscribed members topic = []
    · simp [hnil]
    · rw [if_neg hnil, lookup_share (nodup_subscribed members topic), rangeAt]
      by_cases hm : m ∈ subscribed members topic
      · obtain ⟨slots, hslots⟩ := Option.isSome_iff_exists.mp
          (AList.lookup_isSome.mpr (hmembers m hm))
        simp only [if_pos hm, hslots, Option.getD_some, Option.map_some, Nat.zero_add]
      · simp [hm]

private theorem lookup_foldl_assignTopic {topics : List String}
    (hmembers : ∀ topic, ∀ m ∈ subscribed members topic, m ∈ out) (m : String) :
    (topics.foldl (assignTopic members counts) out).lookup m = (out.lookup m).map
      (· ++ topics.flatMap fun t => (chunk members counts t m).map fun p => (t, p)) := by
  induction topics generalizing out with
  | nil => simp
  | cons topic topics ih =>
    have hlookup := @lookup_assignTopic topic members counts out (hmembers topic)
    rw [List.foldl_cons, ih, hlookup, Option.map_map]
    · congr 1
      funext slots
      simp
    · intro t id hid
      rw [← AList.lookup_isSome, hlookup, Option.isSome_map, AList.lookup_isSome]
      exact hmembers t id hid

theorem lookup_assign (members : Assoc String Member) (counts : String → Option ℕ) (m : String) :
    (assign members counts).lookup m = (members.lookup m).map fun _ =>
      (allTopics members).flatMap fun t => (chunk members counts t m).map fun p => (t, p) := by
  rw [assign, lookup_foldl_assignTopic, Assoc.lookup_mapVal, Option.map_map]
  · rfl
  · intro topic id hid
    obtain ⟨member, hmember, -⟩ := mem_subscribed.mp hid
    rw [← AList.lookup_isSome, Assoc.lookup_mapVal, hmember]
    rfl

/-- The partitions of a topic among the slots of a member, in order. -/
def partitionsOf (out : Slots) (m topic : String) : List ℕ :=
  ((out.lookup m).getD []).filterMap fun slot => if slot.1 = topic then some slot.2 else none

private theorem mem_partitionsOf {m : String} {p : ℕ} :
    p ∈ partitionsOf out m topic ↔ Owns out m (topic, p) := by
  rw [partitionsOf, Owns]
  cases out.lookup m with
  | none => simp
  | some slots => simp [List.mem_filterMap]

private theorem filterMap_chunks {topics : List String} (hnodup : topics.Nodup)
    (f : String → List ℕ) : ((topics.flatMap fun t => (f t).map fun p => (t, p)).filterMap
      fun slot => if slot.1 = topic then some slot.2 else none) =
        if topic ∈ topics then f topic else [] := by
  induction topics with
  | nil => rfl
  | cons t topics ih =>
    obtain ⟨hfresh, hrest⟩ := List.nodup_cons.mp hnodup
    rw [List.flatMap_cons, List.filterMap_append, ih hrest, List.filterMap_map]
    by_cases ht : t = topic
    · subst ht
      rw [if_neg hfresh, if_pos List.mem_cons_self, List.append_nil]
      simp
    · simp [ht, List.mem_cons, Ne.symm ht]

private theorem partitionsOf_assign (members : Assoc String Member) (counts : String → Option ℕ)
    (m topic : String) :
    partitionsOf (assign members counts) m topic = chunk members counts topic m := by
  have hchunk : chunk members counts topic m ≠ [] → m ∈ subscribed members topic := by
    rw [chunk]
    split
    · exact fun h => absurd rfl h
    · dsimp only
      split
      · exact fun _ => ‹_›
      · exact fun h => absurd rfl h
  rw [partitionsOf, lookup_assign]
  cases hm : members.lookup m with
  | none =>
    have hnil : chunk members counts topic m = [] := by
      by_contra hne
      obtain ⟨member, hmember, -⟩ := mem_subscribed.mp (hchunk hne)
      cases hm.symm.trans hmember
    rw [hnil]
    rfl
  | some member =>
    have hnodup : (allTopics members).Nodup := List.nodup_dedup _
    rw [Option.map_some, Option.getD_some,
      filterMap_chunks hnodup fun t => chunk members counts t m]
    split
    · rfl
    · rename_i hfresh
      by_contra hne
      exact hfresh (mem_allTopics_of_subscribed (hchunk (Ne.symm hne)))

end ClosedForm

/-! ## The code's arithmetic -/

/-- `share` in `u32`s: the position of a member is cut to 32 bits, and a sum that does not fit
ends the program. -/
def share32 (topic : String) (per extra : ℕ) : ℕ → ℕ → List String → Slots → Option Slots
  | _, _, [], out => some out
  | i, next, member :: rest, out =>
    let take := per + if i % 2 ^ 32 < extra then 1 else 0
    if next + take < 2 ^ 32 then
      let slots := (out.lookup member).getD [] ++ (List.range' next take).map fun p => (topic, p)
      share32 topic per extra (i + 1) (next + take) rest (out.insert member slots)
    else none

/-- The number of subscribers is cut to 32 bits as well, and a division by zero ends the
program. -/
def assignTopic32 (members : Assoc String Member) (counts : String → Option UInt32) (out : Slots)
    (topic : String) : Option Slots :=
  match counts topic with
  | none => some out
  | some partitions =>
    let ids := subscribed members topic
    if ids = [] then some out
    else
      let n := ids.length % 2 ^ 32
      if n = 0 then none
      else share32 topic (partitions.toNat / n) (partitions.toNat % n) 0 0 ids out

def assign32 (members : Assoc String Member) (counts : String → Option UInt32) : Option Slots :=
  (allTopics members).foldlM (assignTopic32 members counts) (members.mapVal fun _ _ => [])

/-! ## What an assignment is for -/

def Subscribes (members : Assoc String Member) (topic m : String) : Prop :=
  ∃ member, members.lookup m = some member ∧ topic ∈ member.topics

/-- Member `ids[i]` has the partitions from `cut i` up to `cut (i + 1)`. -/
structure SplitsAt (members : Assoc String Member) (topic : String) (partitions : ℕ) (out : Slots)
    (ids : List String) (cut : ℕ → ℕ) : Prop where
  ascending : ids.Pairwise (· < ·)
  subscribers : ∀ m, m ∈ ids ↔ Subscribes members topic m
  cut_zero : cut 0 = 0
  cut_length : cut ids.length = partitions
  cut_le : ∀ i, cut i ≤ cut (i + 1)
  even : ∀ i j, cut (i + 1) - cut i ≤ cut (j + 1) - cut j + 1
  shares : ∀ i m, ids[i]? = some m →
    partitionsOf out m topic = List.range' (cut i) (cut (i + 1) - cut i)

structure Splits (members : Assoc String Member) (counts : String → Option UInt32)
    (out : Slots) : Prop where
  entries : ∀ m, m ∈ out ↔ m ∈ members
  split : ∀ topic partitions, counts topic = some partitions → (∃ m, Subscribes members topic m) →
    ∃ ids cut, SplitsAt members topic partitions.toNat out ids cut
  nothing_else : ∀ m slot, Owns out m slot →
    Subscribes members slot.1 m ∧ (counts slot.1).isSome

/-- The call returns, without an overflow, and splits the partitions. -/
def Assigns (members : Assoc String Member) (counts : String → Option UInt32) : Prop :=
  ∃ out, assign32 members counts = some out ∧ Splits members counts out

/-- The subscribers can be counted in a `u32`, or there is nothing to split and their number does
not come out as zero. -/
def Countable (subscribers partitions : ℕ) : Prop :=
  subscribers < 2 ^ 32 ∨ partitions = 0 ∧ subscribers % 2 ^ 32 ≠ 0

/-! ## Enough to count with -/

section Exact

variable {topic : String} {per extra : ℕ} {out out' : Slots}

/-- As long as positions and sums fit, the `u32`s make no difference. -/
theorem share32_eq_share {i next : ℕ} {ids : List String}
    (hposition : ∀ j, j < i + ids.length → (j % 2 ^ 32 < extra ↔ j < extra))
    (hfits : next + shareTotal per extra i ids.length < 2 ^ 32) :
    share32 topic per extra i next ids out = some (share topic per extra i next ids out) := by
  induction ids generalizing i next out with
  | nil => rfl
  | cons member rest ih =>
    rw [List.length_cons] at hposition hfits
    rw [shareTotal_succ] at hfits
    have htake := hposition i (by omega)
    rw [share32, share]
    simp only [htake]
    rw [if_pos (by omega)]
    refine ih (fun j hj => hposition j (by omega)) ?_
    omega

variable {members : Assoc String Member} {counts : String → Option UInt32}

/-- Every topic with a partition count and subscribers is countable. -/
def AllCountable (members : Assoc String Member) (counts : String → Option UInt32) : Prop :=
  ∀ topic partitions, counts topic = some partitions → subscribed members topic ≠ [] →
    Countable (subscribed members topic).length partitions.toNat

private theorem assignTopic32_eq (h : AllCountable members counts) (out : Slots) (topic : String) :
    assignTopic32 members counts out topic =
      some (assignTopic members (fun t => (counts t).map UInt32.toNat) out topic) := by
  rw [assignTopic32, assignTopic]
  cases hcount : counts topic with
  | none => rfl
  | some partitions =>
    simp only [Option.map_some]
    by_cases hnil : subscribed members topic = []
    · rw [if_pos hnil, if_pos hnil]
    · rw [if_neg hnil, if_neg hnil]
      have hpos := List.length_pos_of_ne_nil hnil
      have htotal := @shareTotal_div_mod partitions.toNat _ hpos
      have hlt := partitions.toNat_lt
      rcases h topic partitions hcount hnil with hfew | ⟨hzero, hmod⟩
      · rw [Nat.mod_eq_of_lt hfew, if_neg hpos.ne']
        refine share32_eq_share (fun j hj => ?_) (by omega)
        rw [Nat.mod_eq_of_lt (by omega)]
      · rw [if_neg hmod, hzero, Nat.zero_div, Nat.zero_div, Nat.zero_mod, Nat.zero_mod]
        refine share32_eq_share (fun j _ => by simp) ?_
        simp [shareTotal]

private theorem assign32_eq (h : AllCountable members counts) :
    assign32 members counts = some (assign members fun t => (counts t).map UInt32.toNat) := by
  rw [assign32, assign]
  generalize members.mapVal (fun _ _ => ([] : List (String × ℕ))) = out
  induction allTopics members generalizing out with
  | nil => rfl
  | cons topic topics ih =>
    rw [List.foldlM_cons, assignTopic32_eq h, List.foldl_cons]
    exact ih _

private theorem pairwise_subscribed (members : Assoc String Member) (topic : String) :
    (subscribed members topic).Pairwise (· < ·) := by
  have hle : (subscribed members topic).Pairwise (· ≤ ·) :=
    List.pairwise_map.mpr (members.pairwise_sorted.filter _)
  refine hle.imp₂ (fun _ _ hle hne => lt_of_le_of_ne hle hne) ?_
  exact nodup_subscribed members topic

private theorem splitsAt_assign {partitions : UInt32} (hcount : counts topic = some partitions)
    (hne : subscribed members topic ≠ []) :
    SplitsAt members topic partitions.toNat
      (assign members fun t => (counts t).map UInt32.toNat) (subscribed members topic)
      (shareTotal (partitions.toNat / (subscribed members topic).length)
        (partitions.toNat % (subscribed members topic).length) 0) where
  ascending := pairwise_subscribed members topic
  subscribers m := mem_subscribed
  cut_zero := by simp [shareTotal]
  cut_length := shareTotal_div_mod (List.length_pos_of_ne_nil hne)
  cut_le i := by
    rw [shareTotal_add]
    omega
  even i j := by
    rw [shareTotal_add _ _ 0 i, shareTotal_add _ _ 0 j, shareTotal_succ, shareTotal_succ]
    simp only [shareTotal, Nat.mul_zero, Nat.add_zero, Nat.sub_self]
    split <;> split <;> omega
  shares i m hi := by
    have hmem := List.mem_of_getElem? hi
    have hidx : (subscribed members topic).idxOf m = i := by
      obtain ⟨hlt, rfl⟩ := List.getElem?_eq_some_iff.mp hi
      exact (nodup_subscribed members topic).idxOf_getElem i hlt
    rw [partitionsOf_assign, chunk, hcount]
    simp only [Option.map_some, if_pos hmem, hidx, rangeAt]
    congr 1
    rw [shareTotal_add _ _ 0 i, shareTotal_succ]
    simp [shareTotal]

private theorem splits_assign (members : Assoc String Member) (counts : String → Option UInt32) :
    Splits members counts (assign members fun t => (counts t).map UInt32.toNat) where
  entries m := by
    rw [← AList.lookup_isSome, lookup_assign, Option.isSome_map, AList.lookup_isSome]
  split topic partitions hcount hsub := by
    obtain ⟨m, hm⟩ := hsub
    exact ⟨_, _, splitsAt_assign hcount (List.ne_nil_of_mem (mem_subscribed.mpr hm))⟩
  nothing_else m slot hm := by
    obtain ⟨hsub, n, hcount, -⟩ := bounds_of_owns_assign hm
    refine ⟨mem_subscribed.mp hsub, ?_⟩
    obtain ⟨partitions, hpartitions, -⟩ := Option.map_eq_some_iff.mp hcount
    rw [hpartitions]
    rfl

/-! ## Too many to count -/

/-- How many partitions `share32` hands out to `len` members from the `i`th on. -/
def shareTotal32 (per extra : ℕ) : ℕ → ℕ → ℕ
  | _, 0 => 0
  | i, len + 1 => (per + if i % 2 ^ 32 < extra then 1 else 0) + shareTotal32 per extra (i + 1) len

theorem shareTotal32_eq {i len : ℕ} (h : i + len ≤ 2 ^ 32) :
    shareTotal32 per extra i len = shareTotal per extra i len := by
  induction len generalizing i with
  | zero => simp [shareTotal32, shareTotal]
  | succ len ih =>
    rw [shareTotal32, shareTotal_succ, ih (by omega), Nat.mod_eq_of_lt (by omega)]

theorem share32_cons {i next : ℕ} {member : String} {rest : List String}
    (h : share32 topic per extra i next (member :: rest) out = some out') :
    share32 topic per extra (i + 1) (next + (per + if i % 2 ^ 32 < extra then 1 else 0)) rest
      (out.insert member ((out.lookup member).getD [] ++
        (List.range' next (per + if i % 2 ^ 32 < extra then 1 else 0)).map fun p => (topic, p))) =
      some out' :=
  (Option.ite_none_right_eq_some.mp h).2

theorem owns_share32_of_owns {i next : ℕ} {ids : List String} {m : String} {slot : String × ℕ}
    (hshare : share32 topic per extra i next ids out = some out') (h : Owns out m slot) :
    Owns out' m slot := by
  induction ids generalizing i next out with
  | nil =>
    cases hshare
    exact h
  | cons member rest ih => exact ih (share32_cons hshare) (owns_insert.mpr (.inl h))

private theorem exists_owns_share32 {i next k : ℕ} {ids : List String}
    (hshare : share32 topic per extra i next ids out = some out') (hk : k < ids.length)
    (htake : 0 < per + if (i + k) % 2 ^ 32 < extra then 1 else 0) :
    ∃ m p, next + shareTotal32 per extra i k ≤ p ∧ Owns out' m (topic, p) := by
  induction ids generalizing i next out k with
  | nil => cases hk
  | cons member rest ih =>
    have hrest := share32_cons hshare
    cases k with
    | zero =>
      refine ⟨member, next, le_rfl, owns_share32_of_owns hrest (owns_insert.mpr (.inr ?_))⟩
      rw [Nat.add_zero] at htake
      exact ⟨rfl, rfl, le_rfl, Nat.lt_add_of_pos_right htake⟩
    | succ k =>
      rw [List.length_cons] at hk
      rw [← Nat.add_assoc, Nat.add_right_comm] at htake
      obtain ⟨m, p, hp, hm⟩ := ih hrest (by omega) htake
      refine ⟨m, p, ?_, hm⟩
      rw [shareTotal32]
      omega

private theorem owns_assignTopic32_of_owns {m : String} {slot : String × ℕ}
    (hassign : assignTopic32 members counts out topic = some out') (h : Owns out m slot) :
    Owns out' m slot := by
  rw [assignTopic32] at hassign
  split at hassign
  · cases hassign
    exact h
  · dsimp only at hassign
    split_ifs at hassign
    · cases hassign
      exact h
    · exact owns_share32_of_owns hassign h

private theorem exists_step_of_foldlM {topics : List String}
    (hfold : topics.foldlM (assignTopic32 members counts) out = some out')
    (hmem : topic ∈ topics) : ∃ before after, assignTopic32 members counts before topic =
      some after ∧ ∀ m slot, Owns after m slot → Owns out' m slot := by
  have hkeep : ∀ (topics : List String) (out : Slots),
      topics.foldlM (assignTopic32 members counts) out = some out' →
        ∀ m slot, Owns out m slot → Owns out' m slot := by
    intro topics
    induction topics with
    | nil =>
      intro out hfold m slot h
      cases hfold
      exact h
    | cons t topics ih =>
      intro out hfold m slot h
      rw [List.foldlM_cons, Option.bind_eq_bind, Option.bind_eq_some_iff] at hfold
      obtain ⟨after, hstep, hrest⟩ := hfold
      exact ih after hrest m slot (owns_assignTopic32_of_owns hstep h)
  induction topics generalizing out with
  | nil => cases hmem
  | cons t topics ih =>
    rw [List.foldlM_cons, Option.bind_eq_bind, Option.bind_eq_some_iff] at hfold
    obtain ⟨after, hstep, hrest⟩ := hfold
    rcases List.mem_cons.mp hmem with rfl | hmem
    · exact ⟨out, after, hstep, hkeep topics after hrest⟩
    · exact ih hrest hmem

private theorem Splits.lt_of_owns (h : Splits members counts out) {partitions : UInt32}
    (hcount : counts topic = some partitions) {m : String} {p : ℕ} (hm : Owns out m (topic, p)) :
    p < partitions.toNat := by
  obtain ⟨hsub, -⟩ := h.nothing_else m _ hm
  obtain ⟨ids, cut, hsplit⟩ := h.split topic partitions hcount ⟨m, hsub⟩
  obtain ⟨i, hi⟩ := List.mem_iff_getElem?.mp ((hsplit.subscribers m).mpr hsub)
  have hp := mem_partitionsOf.mpr hm
  rw [hsplit.shares i m hi, List.mem_range'_1] at hp
  have hlt : i < ids.length := (List.getElem?_eq_some_iff.mp hi).1
  have hmono : cut (i + 1) ≤ cut ids.length := monotone_nat_of_le_succ hsplit.cut_le hlt
  have hle := hsplit.cut_le i
  rw [hsplit.cut_length] at hmono
  omega

theorem allCountable_of_assigns (h : Assigns members counts) : AllCountable members counts := by
  intro topic partitions hcount hne
  obtain ⟨out, hassign, hsplits⟩ := h
  obtain ⟨m, hm⟩ := List.exists_mem_of_ne_nil _ hne
  obtain ⟨before, after, hstep, hkeep⟩ :=
    exists_step_of_foldlM hassign (mem_allTopics_of_subscribed hm)
  rw [assignTopic32, hcount] at hstep
  simp only [if_neg hne] at hstep
  split at hstep
  · cases hstep
  · rename_i hmod
    by_contra hmany
    rw [Countable, not_or, not_and, Nat.not_lt] at hmany
    obtain ⟨hmany, hsome⟩ := hmany
    have hpos : 0 < partitions.toNat := Nat.pos_of_ne_zero fun hzero => hsome hzero hmod
    have hbeyond : ∀ k < (subscribed members topic).length,
        (0 < partitions.toNat / ((subscribed members topic).length % 2 ^ 32) +
          if (0 + k) % 2 ^ 32 < partitions.toNat % ((subscribed members topic).length % 2 ^ 32)
            then 1 else 0) →
        shareTotal32 (partitions.toNat / ((subscribed members topic).length % 2 ^ 32))
          (partitions.toNat % ((subscribed members topic).length % 2 ^ 32)) 0 k <
            partitions.toNat := by
      intro k hk htake
      obtain ⟨m', p, hp, hm'⟩ := exists_owns_share32 hstep hk htake
      have hlt := hsplits.lt_of_owns hcount (hkeep m' _ hm')
      omega
    have hlt := partitions.toNat_lt
    have hle := Nat.mod_le (subscribed members topic).length (2 ^ 32)
    have hmodlt := Nat.mod_lt (subscribed members topic).length (Nat.two_pow_pos 32)
    by_cases hper : (subscribed members topic).length % 2 ^ 32 ≤ partitions.toNat
    · -- the subscriber behind the last one that is counted gets as much as those before it
      have hdiv := Nat.div_pos hper (Nat.pos_of_ne_zero hmod)
      have htotal := hbeyond ((subscribed members topic).length % 2 ^ 32) (by omega) (by omega)
      rw [shareTotal32_eq (by omega), shareTotal_div_mod (Nat.pos_of_ne_zero hmod)] at htotal
      omega
    · -- positions start over at 2^32
      rw [Nat.not_le] at hper
      have htotal := hbeyond (2 ^ 32) (by omega) (by
        rw [Nat.zero_add, Nat.mod_self, Nat.mod_eq_of_lt hper, if_pos hpos]
        exact Nat.succ_pos _)
      rw [shareTotal32_eq (by omega), Nat.div_eq_of_lt hper, Nat.mod_eq_of_lt hper,
        shareTotal] at htotal
      omega

/-- For all members, topic lists and partition counts, an assignment splits every topic among its
subscribers if and only if these can be counted. -/
theorem assigns_iff (members : Assoc String Member) (counts : String → Option UInt32) :
    Assigns members counts ↔ ∀ topic partitions, counts topic = some partitions →
      subscribed members topic ≠ [] →
        Countable (subscribed members topic).length partitions.toNat :=
  ⟨allCountable_of_assigns, fun h => ⟨_, assign32_eq h, splits_assign members counts⟩⟩

end Exact

/-- `n` members that all subscribe to one topic. -/
def crowd (n : ℕ) : Assoc String Member where
  entries := (List.range n).map fun i => ⟨memberName i, ⟨["t"], 0, 0⟩⟩
  nodupKeys := by
    rw [List.NodupKeys, List.keys, List.map_map]
    exact List.nodup_range.map memberName_injective

private theorem length_subscribed_crowd (n : ℕ) : (subscribed (crowd n) "t").length = n := by
  have hall : ((crowd n).sorted.filter fun m => "t" ∈ m.2.topics) = (crowd n).sorted := by
    rw [List.filter_eq_self]
    rintro ⟨id, member⟩ hmem
    have hlookup := AList.mem_lookup_iff.mp (Option.mem_def.mpr (Assoc.mem_sorted.mp hmem))
    obtain ⟨i, -, heq⟩ := List.mem_map.mp hlookup
    cases heq
    rfl
  rw [subscribed, hall, List.length_map, Assoc.sorted, List.length_insertionSort, List.length_map,
    crowd, List.length_map, List.length_range]

/-- The count of 2^32 subscribers comes out as zero. -/
theorem crowd_not_assigned : ¬ Assigns (crowd (2 ^ 32)) fun _ => some 1 := by
  intro h
  have hlength := length_subscribed_crowd (2 ^ 32)
  have hne : subscribed (crowd (2 ^ 32)) "t" ≠ [] := by
    intro hnil
    rw [hnil] at hlength
    cases hlength
  have hcountable := allCountable_of_assigns h "t" 1 rfl hne
  rw [hlength, Countable] at hcountable
  exact absurd hcountable (by decide)

end Replog.Groups

import Replog.Hosting.DataDir
import Replog.Library.Transition
import Replog.Proto.Message

/-!
# Topics of a standalone broker

A standalone broker keeps no list of its topics: after a restart they are what the names in its
data directory tell. The names it lets clients choose are read back unchanged, except that the
scan takes one with a leading dot for a file of somebody else.
-/

namespace Replog.Hosting
open Replog.Library
open Replog.Proto (ErrorCode)

def validTopicName (name : String) : Bool :=
  !name.isEmpty && decide (name.utf8ByteSize ≤ 200) && !"__".toList.isPrefixOf name.toList &&
    name.toList.all fun c => c.isAlphanum || c = '-' || c = '_' || c = '.'

/-- The partition count of each topic, and the data directory. -/
structure Standalone where
  topics : Assoc String ℕ
  dir : List DirEntry

namespace Standalone

/-- The topics of a starting broker are what it finds, its offsets log apart; every partition
opens. -/
def start (dir : List DirEntry) : Except LayoutError Standalone :=
  match scanDataDir dir, openings false dir with
  | .ok topics, .ok opened =>
    .ok { topics := Assoc.ofList (topics.filter (·.1 ≠ offsetsTopic))
          dir := opened.foldl openPartition dir }
  | .error err, _ => .error err
  | _, .error err => .error err

/-- `opens` is how many partitions can be opened before one fails. -/
def createTopic (topic : String) (partitions opens : ℕ) (b : Standalone) :
    ErrorCode × Standalone :=
  if !validTopicName topic || partitions = 0 || 1024 < partitions then (.malformed, b)
  else if topic ∈ b.topics then (.topicExists, b)
  else
    let keys := (List.range partitions).map fun p => (topic, p)
    let dir := (keys.take opens).foldl openPartition b.dir
    if opens < partitions then (.storage, { b with dir })
    else (.none, { topics := b.topics.insert topic partitions, dir })

end Standalone

/-- A broker with the topics it has told clients it created. -/
structure Creation where
  broker : Standalone
  created : List (String × ℕ)

namespace Creation

inductive Action where
  | createTopic (topic : String) (partitions opens : ℕ)
  | restart

/-- A broker that was started for the first time. -/
def init : Creation where
  broker := { topics := ∅, dir := [partitionEntry (offsetsTopic, 0)] }
  created := []

/-- A restart that is refused leaves everything as it was. -/
def step (c : Creation) : Action → Option Creation
  | .createTopic topic partitions opens =>
    let (code, broker) := c.broker.createTopic topic partitions opens
    some { broker, created := if code = .none then c.created ++ [(topic, partitions)] else c.created }
  | .restart =>
    match Standalone.start c.broker.dir with
    | .ok broker => some { c with broker }
    | .error _ => some c

/-- Every topic that is asked for is created. -/
def Succeeds (c : Creation) : Action → Prop
  | .createTopic topic partitions opens =>
    (c.broker.createTopic topic partitions opens).1 = .none
  | .restart => True

instance (c : Creation) : DecidablePred (Succeeds c)
  | .createTopic topic partitions opens =>
    inferInstanceAs (Decidable ((c.broker.createTopic topic partitions opens).1 = .none))
  | .restart => inferInstanceAs (Decidable True)

def visible (c : Creation) : List (String × ℕ) := c.created.filter fun t => ¬ Hidden t.1

theorem mem_visible {c : Creation} {t : String × ℕ} :
    t ∈ c.visible ↔ t ∈ c.created ∧ ¬ Hidden t.1 := by
  rw [visible, List.mem_filter, decide_eq_true_eq]

/-- Under visible names there are the first partition of the offsets topic and the partitions of
the topics created, each of them once. -/
structure Holds (c : Creation) (placed : List (String × ℕ)) : Prop where
  nodup : placed.Nodup
  bounded : ∀ key ∈ placed, key.2 < 2 ^ 64
  mem_iff : ∀ topic k, ¬ Hidden topic →
    ((topic, k) ∈ placed ↔ topic = offsetsTopic ∧ k = 0 ∨ ∃ n, (topic, n) ∈ c.created ∧ k < n)

structure Inv (c : Creation) : Prop where
  dir : ∃ placed, c.broker.dir = placed.map partitionEntry ∧ c.Holds placed
  topics : ∀ topic, ¬ Hidden topic → (topic ∈ c.broker.topics ↔ ∃ n, (topic, n) ∈ c.created)
  counts : ∀ t ∈ c.created, 1 ≤ t.2 ∧ t.2 ≤ 1024 ∧ t.1 ≠ offsetsTopic
  nodup : (c.visible.map Prod.fst).Nodup

theorem Holds.explained {c : Creation} {placed : List (String × ℕ)} (h : c.Holds placed) :
    Explained placed where
  nodup := h.nodup
  bounded := h.bounded
  downward key hkey hvisible k hk := by
    rw [h.mem_iff key.1 k hvisible]
    rcases (h.mem_iff key.1 key.2 hvisible).mp hkey with ⟨htopic, hzero⟩ | ⟨n, hn, hlt⟩
    · omega
    · exact .inr ⟨n, hn, hk.trans hlt⟩

theorem inv_init : init.Inv where
  dir := by
    refine ⟨[(offsetsTopic, 0)], rfl, List.nodup_singleton _, ?_, fun topic k hvisible => ?_⟩
    · intro key hkey
      rw [List.mem_singleton.mp hkey]
      decide
    · simp [init]
  topics topic hvisible := by simp [init]
  counts := nofun
  nodup := .nil

variable {c c' : Creation}

private theorem Inv.eq_of_mem (h : c.Inv) {topic : String} (hvisible : ¬ Hidden topic) {n n' : ℕ}
    (hn : (topic, n) ∈ c.created) (hn' : (topic, n') ∈ c.created) : n = n' := by
  have heq := List.inj_on_of_nodup_map h.nodup (mem_visible.mpr ⟨hn, hvisible⟩)
    (mem_visible.mpr ⟨hn', hvisible⟩) rfl
  exact congrArg Prod.snd heq

/-- What a scan should come back with. -/
def counted (c : Creation) : List (String × ℕ) := c.visible ++ [(offsetsTopic, 1)]

theorem mem_counted {t : String × ℕ} :
    t ∈ c.counted ↔ (t ∈ c.created ∧ ¬ Hidden t.1) ∨ t = (offsetsTopic, 1) := by
  rw [counted, List.mem_append, mem_visible, List.mem_singleton]

/-- The partitions under the name of a counted topic are the ones below its count. -/
theorem Inv.mem_placed (h : c.Inv) {placed : List (String × ℕ)} (hplaced : c.Holds placed)
    {topic : String} {n : ℕ} (hn : (topic, n) ∈ c.counted) :
    ¬ Hidden topic ∧ n ≠ 0 ∧ n < 2 ^ 32 ∧ ∀ k, (topic, k) ∈ placed ↔ k < n := by
  rcases mem_counted.mp hn with ⟨hn, hvisible⟩ | heq
  · obtain ⟨hpos, hle, hne⟩ := h.counts _ hn
    refine ⟨hvisible, by omega, by omega, fun k => ?_⟩
    rw [hplaced.mem_iff _ _ hvisible]
    constructor
    · rintro (⟨htopic, -⟩ | ⟨n', hn', hk⟩)
      · exact absurd htopic hne
      · exact h.eq_of_mem hvisible hn hn' ▸ hk
    · exact fun hk => .inr ⟨n, hn, hk⟩
  · obtain ⟨rfl, rfl⟩ := Prod.mk.inj heq
    have hvisible : ¬ Hidden offsetsTopic := by decide
    refine ⟨hvisible, one_ne_zero, by omega, fun k => ?_⟩
    rw [hplaced.mem_iff _ _ hvisible]
    constructor
    · rintro (⟨-, rfl⟩ | ⟨n, hn, -⟩)
      · exact Nat.one_pos
      · exact absurd rfl (h.counts _ hn).2.2
    · exact fun hk => .inl ⟨rfl, by omega⟩

theorem Inv.length_numbersOf (h : c.Inv) {placed : List (String × ℕ)} (hplaced : c.Holds placed)
    {topic : String} {n : ℕ} (hn : (topic, n) ∈ c.counted) :
    (numbersOf placed topic).length = n := by
  have hperm : (numbersOf placed topic).Perm (List.range n) := by
    rw [List.perm_ext_iff_of_nodup (nodup_numbersOf hplaced.nodup topic) List.nodup_range]
    intro k
    rw [mem_numbersOf, (h.mem_placed hplaced hn).2.2.2, List.mem_range]
  rw [hperm.length_eq, List.length_range]

theorem Inv.nodup_counted (h : c.Inv) : (c.counted.map Prod.fst).Nodup := by
  rw [counted, List.map_append]
  refine h.nodup.append (List.nodup_singleton _) (List.disjoint_singleton.mpr fun hmem => ?_)
  obtain ⟨t, ht, heq⟩ := List.mem_map.mp hmem
  exact (h.counts t (mem_visible.mp ht).1).2.2 heq

/-- The scan finds the offsets topic and the visible topics. -/
theorem Inv.scan (h : c.Inv) {entries : List DirEntry} (hperm : entries.Perm c.broker.dir) :
    ∃ topics, scanDataDir entries = .ok topics ∧ topics.Perm c.counted := by
  obtain ⟨placed, hdir, hplaced⟩ := h.dir
  obtain ⟨topics, hscan, hnodup, hcounts⟩ :=
    scanDataDir_counts hplaced.explained (hdir ▸ hperm)
  refine ⟨topics, hscan, ?_⟩
  rw [List.perm_ext_iff_of_nodup hnodup.of_map h.nodup_counted.of_map]
  rintro ⟨topic, n⟩
  rw [hcounts]
  constructor
  · rintro ⟨hvisible, hzero, rfl⟩
    have hsome : ∃ n, (topic, n) ∈ c.counted := by
      rcases (hplaced.mem_iff topic 0 hvisible).mp hzero with ⟨rfl, -⟩ | ⟨n, hn, -⟩
      · exact ⟨1, mem_counted.mpr (.inr rfl)⟩
      · exact ⟨n, mem_counted.mpr (.inl ⟨hn, hvisible⟩)⟩
    obtain ⟨n, hn⟩ := hsome
    obtain ⟨-, -, hlt, -⟩ := h.mem_placed hplaced hn
    rwa [h.length_numbersOf hplaced hn, Nat.mod_eq_of_lt hlt]
  · intro hn
    obtain ⟨hvisible, hne, hlt, hmem⟩ := h.mem_placed hplaced hn
    refine ⟨hvisible, (hmem 0).mpr (Nat.pos_of_ne_zero hne), ?_⟩
    rw [h.length_numbersOf hplaced hn, Nat.mod_eq_of_lt hlt]

private theorem createTopic_none {topic : String} {partitions opens : ℕ} {b : Standalone}
    (h : (b.createTopic topic partitions opens).1 = .none) :
    validTopicName topic = true ∧ 1 ≤ partitions ∧ partitions ≤ 1024 ∧ topic ∉ b.topics ∧
      (b.createTopic topic partitions opens).2 =
        { topics := b.topics.insert topic partitions
          dir := ((List.range partitions).map fun p => (topic, p)).foldl openPartition b.dir } := by
  rw [Standalone.createTopic] at h ⊢
  split_ifs at h ⊢ with hbad hexists hfail
  simp only [Bool.or_eq_true, Bool.not_eq_true', decide_eq_true_eq, not_or,
    Bool.not_eq_false] at hbad
  refine ⟨hbad.1.1, by omega, by omega, hexists, ?_⟩
  dsimp only
  rw [List.take_of_length_le]
  rw [List.length_map, List.length_range]
  omega

private theorem ne_offsetsTopic {topic : String} (h : validTopicName topic = true) :
    topic ≠ offsetsTopic := by
  rintro rfl
  exact absurd h (by decide)

theorem Inv.createTopic (h : c.Inv) {topic : String} {partitions opens : ℕ}
    (hok : (c.broker.createTopic topic partitions opens).1 = .none) :
    Inv { broker := (c.broker.createTopic topic partitions opens).2
          created := c.created ++ [(topic, partitions)] } := by
  obtain ⟨hvalid, hpos, hle, hnew, hbroker⟩ := createTopic_none hok
  obtain ⟨placed, hdir, hplaced⟩ := h.dir
  rw [hbroker]
  refine ⟨⟨place placed ((List.range partitions).map fun p => (topic, p)), ?_, ?_⟩, ?_, ?_, ?_⟩
  · rw [hdir, foldl_openPartition]
  · refine ⟨nodup_place hplaced.nodup _, fun key hkey => ?_, fun topic' k hvisible => ?_⟩
    · rcases mem_place.mp hkey with hkey | hkey
      · exact hplaced.bounded key hkey
      · obtain ⟨p, hp, rfl⟩ := List.mem_map.mp hkey
        have := List.mem_range.mp hp
        dsimp only
        omega
    · rw [mem_place, hplaced.mem_iff topic' k hvisible]
      simp only [List.mem_map, List.mem_range, Prod.mk.injEq, List.mem_append,
        List.mem_singleton]
      constructor
      · rintro ((hoffsets | ⟨n, hn, hk⟩) | ⟨p, hp, rfl, rfl⟩)
        · exact .inl hoffsets
        · exact .inr ⟨n, .inl hn, hk⟩
        · exact .inr ⟨partitions, .inr ⟨rfl, rfl⟩, hp⟩
      · rintro (hoffsets | ⟨n, hn | ⟨rfl, rfl⟩, hk⟩)
        · exact .inl (.inl hoffsets)
        · exact .inl (.inr ⟨n, hn, hk⟩)
        · exact .inr ⟨k, hk, rfl, rfl⟩
  · intro topic' hvisible
    rw [AList.mem_insert, h.topics topic' hvisible]
    simp only [List.mem_append, List.mem_singleton, Prod.mk.injEq]
    constructor
    · rintro (rfl | ⟨n, hn⟩)
      · exact ⟨partitions, .inr ⟨rfl, rfl⟩⟩
      · exact ⟨n, .inl hn⟩
    · rintro ⟨n, hn | ⟨rfl, -⟩⟩
      · exact .inr ⟨n, hn⟩
      · exact .inl rfl
  · intro t ht
    rcases List.mem_append.mp ht with ht | ht
    · exact h.counts t ht
    · rw [List.mem_singleton.mp ht]
      exact ⟨hpos, hle, ne_offsetsTopic hvalid⟩
  · rw [visible, List.filter_append]
    by_cases hhidden : Hidden topic
    · rw [List.filter_singleton, decide_eq_false (not_not.mpr hhidden), cond_false,
        List.append_nil]
      exact h.nodup
    · have hfresh : topic ∉ c.visible.map Prod.fst := by
        intro hmem
        obtain ⟨t, ht, rfl⟩ := List.mem_map.mp hmem
        exact hnew ((h.topics _ hhidden).mpr ⟨t.2, (mem_visible.mp ht).1⟩)
      rw [List.filter_singleton, decide_eq_true hhidden, cond_true, List.map_append]
      exact h.nodup.append (List.nodup_singleton _) (List.disjoint_singleton.mpr hfresh)

/-- A restart finds what it needs and adds nothing. -/
theorem Inv.restart (h : c.Inv) :
    ∃ b, Standalone.start c.broker.dir = .ok b ∧ Inv { c with broker := b } := by
  obtain ⟨placed, hdir, hplaced⟩ := h.dir
  obtain ⟨topics, hscan, hperm⟩ := h.scan (.refl _)
  have hoffsets : offsetsTopic ∈ topics.map Prod.fst :=
    List.mem_map.mpr ⟨_, hperm.mem_iff.mpr (mem_counted.mpr (.inr rfl)), rfl⟩
  have hfound : ∀ key ∈ topics.flatMap fun t => (List.range t.2).map fun p => (t.1, p),
      key ∈ placed := by
    intro key hkey
    obtain ⟨⟨topic, n⟩, ht, hmem⟩ := List.mem_flatMap.mp hkey
    obtain ⟨p, hp, rfl⟩ := List.mem_map.mp hmem
    exact ((h.mem_placed hplaced (hperm.mem_iff.mp ht)).2.2.2 p).mpr (List.mem_range.mp hp)
  have hstart : Standalone.start c.broker.dir = .ok {
      topics := Assoc.ofList (topics.filter (·.1 ≠ offsetsTopic))
      dir := (place placed (topics.flatMap fun t => (List.range t.2).map fun p => (t.1, p))).map
        partitionEntry } := by
    rw [Standalone.start, openings, hscan]
    simp [hoffsets, hdir, foldl_openPartition]
  refine ⟨_, hstart, ⟨_, rfl, ?_⟩, fun topic hvisible => ?_, h.counts, h.nodup⟩
  · have hsame : ∀ key, key ∈ place placed _ ↔ key ∈ placed := fun key =>
      mem_place.trans ⟨fun hkey => hkey.elim id (hfound key), .inl⟩
    refine ⟨nodup_place hplaced.nodup _, fun key hkey => ?_, fun topic k hvisible => ?_⟩
    · exact hplaced.bounded key ((hsame key).mp hkey)
    · rw [hsame]
      exact hplaced.mem_iff topic k hvisible
  · have hnodup : ((topics.filter (·.1 ≠ offsetsTopic)).map Prod.fst).Nodup := by
      have hall : (topics.map Prod.fst).Nodup :=
        (hperm.map Prod.fst).nodup_iff.mpr h.nodup_counted
      exact (List.filter_sublist.map _).nodup hall
    have hlookup : ∀ n, (Assoc.ofList (topics.filter (·.1 ≠ offsetsTopic))).lookup topic = some n ↔
        (topic, n) ∈ c.created := by
      intro n
      rw [Assoc.lookup_ofList hnodup, List.mem_filter, hperm.mem_iff, mem_counted]
      constructor
      · rintro ⟨⟨hn, -⟩ | heq, hne⟩
        · exact hn
        · rw [heq] at hne
          exact absurd hne (by decide)
      · exact fun hn => ⟨.inl ⟨hn, hvisible⟩, by simpa using (h.counts _ hn).2.2⟩
    rw [← AList.lookup_isSome, Option.isSome_iff_exists]
    exact exists_congr hlookup

theorem inv_of_step (h : c.Inv) {a : Action} (ha : c.Succeeds a) (hstep : c.step a = some c') :
    c'.Inv := by
  cases a with
  | createTopic topic partitions opens =>
    have hok : (c.broker.createTopic topic partitions opens).1 = .none := ha
    simp only [step, hok, if_true] at hstep
    cases hstep
    exact h.createTopic hok
  | restart =>
    obtain ⟨b, hstart, hb⟩ := h.restart
    rw [step, hstart] at hstep
    cases hstep
    exact hb

/-- A restart comes back with exactly the topics that were created, whatever the order of the
listing, if and only if none of their names starts with a dot. -/
theorem scan_created (h : Reach step Succeeds init c) {entries : List DirEntry}
    (hperm : entries.Perm c.broker.dir) :
    (∃ topics, scanDataDir entries = .ok topics ∧
        topics.Perm (c.created ++ [(offsetsTopic, 1)])) ↔
      ∀ t ∈ c.created, ¬ Hidden t.1 := by
  have hinv : c.Inv := h.invariant inv_init fun _ _ _ hs ha hstep => inv_of_step hs ha hstep
  obtain ⟨topics, hscan, htopics⟩ := hinv.scan hperm
  constructor
  · rintro ⟨topics', hscan', hall⟩
    rw [hscan, Except.ok.injEq] at hscan'
    subst hscan'
    have hlength := (htopics.symm.trans hall).length_eq
    rw [counted, List.length_append, List.length_append, Nat.add_right_cancel_iff, visible,
      List.length_filter_eq_length_iff] at hlength
    exact fun t ht => of_decide_eq_true (hlength t ht)
  · intro hvisible
    refine ⟨topics, hscan, htopics.trans (.of_eq ?_)⟩
    rw [counted, visible, List.filter_eq_self.mpr fun t ht => decide_eq_true (hvisible t ht)]

theorem scan_created_dashes : ∃ c : Creation, c.created = [("a-1", 2), ("a", 1), ("_.-", 1)] ∧
    ∃ topics, scanDataDir c.broker.dir = .ok topics ∧
      topics.Perm [("a-1", 2), ("a", 1), ("_.-", 1), (offsetsTopic, 1)] := by
  obtain ⟨c, hreach, hcreated⟩ := Reach.exists_of_runSteps step Succeeds init
    [.createTopic "a-1" 2 2, .createTopic "a" 1 1, .restart, .createTopic "_.-" 1 1]
    (fun c => c.created = [("a-1", 2), ("a", 1), ("_.-", 1)]) (by decide)
  have hscan := (scan_created hreach (.refl _)).mpr (by rw [hcreated]; decide)
  rw [hcreated] at hscan
  exact ⟨c, hcreated, hscan⟩

/-- A topic with a leading dot is created, and the scan passes over it. -/
theorem hidden_lost : ∃ c, Reach step Succeeds init c ∧ c.created = [(".a", 1)] ∧
    ¬ ∃ topics, scanDataDir c.broker.dir = .ok topics ∧
      topics.Perm (c.created ++ [(offsetsTopic, 1)]) := by
  obtain ⟨c, hreach, hcreated, hdir⟩ := Reach.exists_of_runSteps step Succeeds init
    [.createTopic ".a" 1 1] (fun c => c.created = [(".a", 1)] ∧
      scanDataDir c.broker.dir = .ok [(offsetsTopic, 1)]) (by decide)
  refine ⟨c, hreach, hcreated, fun ⟨topics, hscan, hperm⟩ => ?_⟩
  rw [hdir] at hscan
  cases hscan
  have hlength := hperm.length_eq
  rw [hcreated] at hlength
  exact absurd hlength (by decide)

end Creation
end Replog.Hosting

import Mathlib.Algebra.GroupWithZero.Nat
import Mathlib.Data.List.Perm.Basic
import Replog.Library.AssocList

/-!
# The data directory of a broker

Every partition has a directory of its own, named after its topic and number. A broker that
starts looks at all of them before anything else and refuses to run on a layout it cannot explain.
-/

namespace Replog.Hosting
open Replog.Library

structure DirEntry where
  name : String
  isDir : Bool
  deriving DecidableEq

inductive LayoutError where
  | unexpectedFile (name : String)
  | unnumbered (name : String)
  | nonNumeric (name : String)
  | gap (topic : String) (partitions : List ℕ)
  deriving DecidableEq

def LayoutError.message : LayoutError → String
  | .unexpectedFile name => s!"unexpected file {name} in data dir"
  | .unnumbered name => s!"directory {name} is not <topic>-<partition>"
  | .nonNumeric name => s!"directory {name} has a non-numeric partition suffix"
  | .gap topic partitions => s!"topic {topic} partitions are not contiguous from 0: {partitions}"

def offsetsTopic : String := "__offsets"

def partitionName (topic : String) (p : ℕ) : String := s!"{topic}-{p}"

def partitionEntry (key : String × ℕ) : DirEntry where
  name := partitionName key.1 key.2
  isDir := true

/-! ## Reading one name -/

/-- Splits at the last separator, which goes to neither side. -/
def rsplitOnce (sep : Char) : List Char → Option (List Char × List Char)
  | [] => none
  | c :: rest =>
    match rsplitOnce sep rest with
    | some (before, after) => some (c :: before, after)
    | none => if c = sep then some ([], rest) else none

def dropPlus : List Char → List Char
  | '+' :: rest => rest
  | s => s

/-- At least one decimal digit, after at most one plus sign, and no overflow. -/
def parseU64 (s : List Char) : Option ℕ :=
  let digits := dropPlus s
  if digits ≠ [] ∧ digits.all Char.isDigit ∧ Nat.ofDigitChars 10 digits 0 < 2 ^ 64 then
    some (Nat.ofDigitChars 10 digits 0)
  else none

def Hidden (name : String) : Prop := name.toList.head? = some '.'

instance (name : String) : Decidable (Hidden name) :=
  inferInstanceAs (Decidable (name.toList.head? = some '.'))

theorem rsplitOnce_append {sep : Char} {after : List Char} (hafter : sep ∉ after)
    (before : List Char) : rsplitOnce sep (before ++ sep :: after) = some (before, after) := by
  have hnone : rsplitOnce sep after = none := by
    induction after with
    | nil => rfl
    | cons c rest ih =>
      simp only [List.mem_cons, not_or] at hafter
      rw [rsplitOnce, ih hafter.2]
      simp only [if_neg (Ne.symm hafter.1)]
  induction before with
  | nil =>
    rw [List.nil_append, rsplitOnce, hnone]
    simp only [if_pos]
  | cons c rest ih => rw [List.cons_append, rsplitOnce, ih]

theorem parseU64_toDigits {p : ℕ} (hp : p < 2 ^ 64) : parseU64 (Nat.toDigits 10 p) = some p := by
  have hdigit : ∀ c ∈ Nat.toDigits 10 p, c.isDigit := fun c hc =>
    Nat.isDigit_of_mem_toDigits (by decide) (by decide) hc
  have hplus : dropPlus (Nat.toDigits 10 p) = Nat.toDigits 10 p := by
    rw [dropPlus.eq_def]
    split
    · rename_i rest heq
      exact absurd (hdigit '+' (heq ▸ List.mem_cons_self)) (by decide)
    · rfl
  rw [parseU64, hplus, Nat.ofDigitChars_ten_toDigits]
  exact if_pos ⟨Nat.toDigits_ne_nil, List.all_eq_true.mpr hdigit, hp⟩

theorem toList_partitionName (topic : String) (p : ℕ) :
    (partitionName topic p).toList = topic.toList ++ '-' :: Nat.toDigits 10 p := by
  simp [partitionName, Nat.toList_repr, toString]

/-- The partition an entry stands for, none if the scan passes over it. -/
def DirEntry.partition (e : DirEntry) : Except LayoutError (Option (String × ℕ)) :=
  if Hidden e.name then .ok none
  else if !e.isDir then .error (.unexpectedFile e.name)
  else
    match rsplitOnce '-' e.name.toList with
    | none => .error (.unnumbered e.name)
    | some (topic, digits) =>
      match parseU64 digits with
      | none => .error (.nonNumeric e.name)
      | some p => .ok (some (String.ofList topic, p))

theorem hidden_partitionName {topic : String} {p : ℕ} :
    Hidden (partitionName topic p) ↔ Hidden topic := by
  rw [Hidden, Hidden, toList_partitionName]
  cases topic.toList <;> simp

private theorem partition_partitionEntry (topic : String) {p : ℕ} (hp : p < 2 ^ 64) :
    (partitionEntry (topic, p)).partition =
      .ok (if Hidden topic then none else some (topic, p)) := by
  have hdash : '-' ∉ Nat.toDigits 10 p := fun hmem =>
    absurd (Nat.isDigit_of_mem_toDigits (by decide) (by decide) hmem) (by decide)
  rw [DirEntry.partition, partitionEntry]
  by_cases hhidden : Hidden topic
  · simp [hidden_partitionName, hhidden]
  · simp [hidden_partitionName, hhidden, toList_partitionName, rsplitOnce_append hdash,
      parseU64_toDigits hp]

theorem partitionEntry_injective : Function.Injective partitionEntry := by
  rintro ⟨topic, p⟩ ⟨topic', p'⟩ heq
  have hname : (partitionName topic p).toList = (partitionName topic' p').toList :=
    congrArg (String.toList ∘ DirEntry.name) heq
  have hdash : ∀ n, '-' ∉ Nat.toDigits 10 n := fun n hmem =>
    absurd (Nat.isDigit_of_mem_toDigits (by decide) (by decide) hmem) (by decide)
  have hsplit := congrArg (rsplitOnce '-') hname
  rw [toList_partitionName, toList_partitionName, rsplitOnce_append (hdash p),
    rsplitOnce_append (hdash p')] at hsplit
  simp only [Option.some.injEq, Prod.mk.injEq] at hsplit
  have hp := congrArg (Nat.ofDigitChars 10 · 0) hsplit.2
  simp only [Nat.ofDigitChars_ten_toDigits] at hp
  rw [String.toList_injective hsplit.1, hp]

/-! ## The scan -/

/-- The partition numbers of every topic, in the order of the listing. -/
def collect : List DirEntry → Assoc String (List ℕ) → Except LayoutError (Assoc String (List ℕ))
  | [], partitions => .ok partitions
  | e :: rest, partitions =>
    match e.partition with
    | .error err => .error err
    | .ok none => collect rest partitions
    | .ok (some (topic, p)) =>
      collect rest (partitions.insert topic ((partitions.lookup topic).getD [] ++ [p]))

/-- The count of partitions, if in order they are the numbers from 0 on. -/
def contiguous (topic : String) (ps : List ℕ) : Except LayoutError (String × ℕ) :=
  let ps := ps.insertionSort (· ≤ ·)
  if ps.zipIdx.all fun q => q.2 = q.1 then .ok (topic, ps.length % 2 ^ 32)
  else .error (.gap topic ps)

def countAll : List (String × List ℕ) → Except LayoutError (List (String × ℕ))
  | [] => .ok []
  | (topic, ps) :: rest =>
    match contiguous topic ps, countAll rest with
    | .ok counted, .ok out => .ok (counted :: out)
    | .error err, _ => .error err
    | _, .error err => .error err

def scanDataDir (entries : List DirEntry) : Except LayoutError (List (String × ℕ)) :=
  match collect entries ∅ with
  | .error err => .error err
  | .ok partitions => countAll (partitions.entries.map fun e => (e.1, e.2))

/-- The numbers of one topic, in the order of the listing. -/
def numbersOf (placed : List (String × ℕ)) (topic : String) : List ℕ :=
  (placed.filter (·.1 = topic)).map Prod.snd

theorem mem_numbersOf {placed : List (String × ℕ)} {topic : String} {p : ℕ} :
    p ∈ numbersOf placed topic ↔ (topic, p) ∈ placed := by
  simp only [numbersOf, List.mem_map, List.mem_filter, decide_eq_true_eq]
  constructor
  · rintro ⟨⟨topic', p'⟩, ⟨hmem, rfl⟩, rfl⟩
    exact hmem
  · exact fun h => ⟨(topic, p), ⟨h, rfl⟩, rfl⟩

theorem nodup_numbersOf {placed : List (String × ℕ)} (h : placed.Nodup) (topic : String) :
    (numbersOf placed topic).Nodup := by
  refine (h.filter _).map_on fun key hkey key' hkey' heq => Prod.ext ?_ heq
  have hkey := (List.mem_filter.mp hkey).2
  have hkey' := (List.mem_filter.mp hkey').2
  rw [decide_eq_true_eq] at hkey hkey'
  rw [hkey, hkey']

private theorem numbersOf_cons_self (topic : String) (p : ℕ) (placed : List (String × ℕ)) :
    numbersOf ((topic, p) :: placed) topic = p :: numbersOf placed topic := by
  simp [numbersOf]

theorem numbersOf_cons_of_ne {key : String × ℕ} {topic : String} (h : topic ≠ key.1)
    (placed : List (String × ℕ)) : numbersOf (key :: placed) topic = numbersOf placed topic := by
  simp [numbersOf, Ne.symm h]

/-- What is collected of the directories of some partitions: their numbers, topic by topic, and
nothing of a topic that none of them is of. -/
private theorem collect_map {placed : List (String × ℕ)} (hp : ∀ key ∈ placed, key.2 < 2 ^ 64)
    (partitions : Assoc String (List ℕ)) :
    ∃ partitions', collect (placed.map partitionEntry) partitions = .ok partitions' ∧
      ∀ topic, partitions'.lookup topic =
        if Hidden topic ∨ numbersOf placed topic = [] then partitions.lookup topic
        else some ((partitions.lookup topic).getD [] ++ numbersOf placed topic) := by
  induction placed generalizing partitions with
  | nil => exact ⟨partitions, rfl, fun topic => (if_pos (.inr rfl)).symm⟩
  | cons key placed ih =>
    obtain ⟨topic, p⟩ := key
    obtain ⟨hkey, hrest⟩ := List.forall_mem_cons.mp hp
    rw [List.map_cons, collect, partition_partitionEntry topic hkey]
    by_cases hhidden : Hidden topic
    · simp only [if_pos hhidden]
      obtain ⟨partitions', hcollect, hlookup⟩ := ih hrest partitions
      refine ⟨partitions', hcollect, fun topic' => ?_⟩
      rw [hlookup]
      by_cases htopic : topic' = topic
      · rw [htopic, if_pos (.inl hhidden), if_pos (.inl hhidden)]
      · rw [numbersOf_cons_of_ne htopic]
    · simp only [if_neg hhidden]
      obtain ⟨partitions', hcollect, hlookup⟩ := ih hrest _
      refine ⟨partitions', hcollect, fun topic' => ?_⟩
      rw [hlookup]
      by_cases htopic : topic' = topic
      · subst htopic
        rw [AList.lookup_insert, numbersOf_cons_self, if_neg (c := Hidden topic' ∨ _ :: _ = [])]
        · split
          · rename_i hlast
            rw [hlast.resolve_left hhidden]
          · rw [Option.getD_some, List.append_assoc, List.singleton_append]
        · simp [hhidden]
      · rw [AList.lookup_insert_ne htopic, numbersOf_cons_of_ne htopic]

private theorem subset_of_downward {ps : List ℕ} (hnodup : ps.Nodup)
    (hdown : ∀ p ∈ ps, ∀ k < p, k ∈ ps) : List.range ps.length ⊆ ps := by
  intro k hk
  rw [List.mem_range] at hk
  by_contra hmissing
  have hbelow : ps ⊆ List.range k := fun p hp => by
    rw [List.mem_range]
    by_contra hle
    have hne : p ≠ k := fun h => hmissing (h ▸ hp)
    exact hmissing (hdown p hp k (by omega))
  have hlen := (List.subperm_of_subset hnodup hbelow).length_le
  rw [List.length_range] at hlen
  omega

private theorem contiguous_of_downward {ps : List ℕ} (hnodup : ps.Nodup)
    (hdown : ∀ p ∈ ps, ∀ k < p, k ∈ ps) (topic : String) :
    contiguous topic ps = .ok (topic, ps.length % 2 ^ 32) := by
  have hsub := subset_of_downward hnodup hdown
  have hperm : (List.range ps.length).Perm ps :=
    (List.subperm_of_subset List.nodup_range hsub).perm_of_length_le (by simp)
  have hsorted : ps.insertionSort (· ≤ ·) = List.range ps.length :=
    ((List.perm_insertionSort _ ps).trans hperm.symm).eq_of_pairwise'
      (List.pairwise_insertionSort _ ps) List.pairwise_le_range
  rw [contiguous, hsorted, if_pos, List.length_range]
  rw [List.all_eq_true]
  rintro ⟨p, i⟩ hmem
  have := List.mem_zipIdx hmem
  simp_all

private theorem countAll_of_forall {partitions : List (String × List ℕ)}
    (h : ∀ e ∈ partitions, contiguous e.1 e.2 = .ok (e.1, e.2.length % 2 ^ 32)) :
    countAll partitions = .ok (partitions.map fun e => (e.1, e.2.length % 2 ^ 32)) := by
  induction partitions with
  | nil => rfl
  | cons e partitions ih =>
    obtain ⟨he, hrest⟩ := List.forall_mem_cons.mp h
    rw [countAll, he, ih hrest, List.map_cons]

/-- Some partitions, each once, without a gap in a topic that the scan looks at. -/
structure Explained (placed : List (String × ℕ)) : Prop where
  nodup : placed.Nodup
  bounded : ∀ key ∈ placed, key.2 < 2 ^ 64
  downward : ∀ key ∈ placed, ¬ Hidden key.1 → ∀ k < key.2, (key.1, k) ∈ placed

theorem Explained.perm {placed placed' : List (String × ℕ)} (h : Explained placed)
    (hperm : placed'.Perm placed) : Explained placed' where
  nodup := hperm.nodup_iff.mpr h.nodup
  bounded key hkey := h.bounded key (hperm.mem_iff.mp hkey)
  downward key hkey hvisible k hk :=
    hperm.mem_iff.mpr (h.downward key (hperm.mem_iff.mp hkey) hvisible k hk)

/-- The scan accepts what can be explained, in whatever order the directory is listed, and counts
the partitions of the topics it looks at. -/
theorem scanDataDir_counts {placed : List (String × ℕ)} (h : Explained placed)
    {entries : List DirEntry} (hperm : entries.Perm (placed.map partitionEntry)) :
    ∃ topics, scanDataDir entries = .ok topics ∧ (topics.map Prod.fst).Nodup ∧
      ∀ topic n, (topic, n) ∈ topics ↔ ¬ Hidden topic ∧ (topic, 0) ∈ placed ∧
        n = (numbersOf placed topic).length % 2 ^ 32 := by
  obtain ⟨placed', rfl, hplaced⟩ :=
    (congrFun (congrFun (List.eq_map_comp_perm partitionEntry) entries) placed).mpr hperm
  have h' := h.perm hplaced
  have hnumbers : ∀ topic, (numbersOf placed' topic).Perm (numbersOf placed topic) := fun topic =>
    (hplaced.filter _).map _
  obtain ⟨partitions, hcollect, hlookup⟩ := collect_map h'.bounded ∅
  have hfound : ∀ topic ps, partitions.lookup topic = some ps ↔
      ¬ Hidden topic ∧ numbersOf placed' topic ≠ [] ∧ ps = numbersOf placed' topic := by
    intro topic ps
    rw [hlookup topic]
    split
    · rename_i hnone
      refine ⟨nofun, fun hps => ?_⟩
      exact absurd hnone (not_or.mpr ⟨hps.1, hps.2.1⟩)
    · rename_i hsome
      rw [Option.some.injEq]
      exact ⟨fun hps => ⟨fun hh => hsome (.inl hh), fun hn => hsome (.inr hn), hps.symm⟩,
        fun hps => hps.2.2.symm⟩
  have hentries : ∀ e ∈ partitions.entries.map fun e => (e.1, e.2),
      partitions.lookup e.1 = some e.2 := by
    intro e he
    obtain ⟨⟨topic, ps⟩, hmem, rfl⟩ := List.mem_map.mp he
    exact AList.mem_lookup_iff.mpr hmem
  have hdown : ∀ topic, ¬ Hidden topic → ∀ p ∈ numbersOf placed' topic, ∀ k < p,
      k ∈ numbersOf placed' topic := fun topic hvisible p hp k hk =>
    mem_numbersOf.mpr (h'.downward (topic, p) (mem_numbersOf.mp hp) hvisible k hk)
  have hcontiguous : ∀ e ∈ partitions.entries.map fun e => (e.1, e.2),
      contiguous e.1 e.2 = .ok (e.1, e.2.length % 2 ^ 32) := by
    intro e he
    obtain ⟨hvisible, -, hps⟩ := (hfound _ _).mp (hentries e he)
    rw [hps]
    exact contiguous_of_downward (nodup_numbersOf h'.nodup e.1) (hdown e.1 hvisible) e.1
  refine ⟨_, by rw [scanDataDir, hcollect]; exact countAll_of_forall hcontiguous, ?_, ?_⟩
  · rw [List.map_map, List.map_map]
    exact partitions.nodupKeys
  · intro topic n
    have hzero : ¬ Hidden topic → (numbersOf placed' topic ≠ [] ↔ (topic, 0) ∈ placed) := by
      intro hvisible
      rw [← hplaced.mem_iff, ← mem_numbersOf]
      refine ⟨fun hne => ?_, List.ne_nil_of_mem⟩
      obtain ⟨p, hp⟩ := List.exists_mem_of_ne_nil _ hne
      rcases Nat.eq_zero_or_pos p with rfl | hpos
      · exact hp
      · exact hdown topic hvisible p hp 0 hpos
    rw [← (hnumbers topic).length_eq, List.mem_map]
    constructor
    · rintro ⟨e, he, heq⟩
      obtain ⟨rfl, rfl⟩ := Prod.mk.inj heq
      obtain ⟨hvisible, hne, hps⟩ := (hfound _ _).mp (hentries e he)
      exact ⟨hvisible, (hzero hvisible).mp hne, by rw [hps]⟩
    · rintro ⟨hvisible, hmem, rfl⟩
      have hps := (hfound topic _).mpr ⟨hvisible, (hzero hvisible).mpr hmem, rfl⟩
      exact ⟨(topic, numbersOf placed' topic),
        List.mem_map.mpr ⟨_, AList.mem_lookup_iff.mp hps, rfl⟩, rfl⟩

/-! ## What a broker does with the directory -/

/-- Opening a partition creates its directory if it is missing. -/
def openPartition (dir : List DirEntry) (key : String × ℕ) : List DirEntry :=
  dir.insert (partitionEntry key)

/-- The partitions that a starting broker opens: its offsets log and, outside cluster mode, every
other one it finds. -/
def openings (clustered : Bool) (dir : List DirEntry) : Except LayoutError (List (String × ℕ)) :=
  match scanDataDir dir with
  | .error err => .error err
  | .ok topics =>
    let served := topics.filter fun t => !clustered || t.1 = offsetsTopic
    let found := served.flatMap fun t => (List.range t.2).map fun p => (t.1, p)
    .ok (if offsetsTopic ∈ topics.map Prod.fst then found else found ++ [(offsetsTopic, 0)])

/-- What is there after opening some more partitions. -/
def place (placed keys : List (String × ℕ)) : List (String × ℕ) :=
  keys.foldl (fun placed key => placed.insert key) placed

theorem mem_place {placed keys : List (String × ℕ)} {key : String × ℕ} :
    key ∈ place placed keys ↔ key ∈ placed ∨ key ∈ keys := by
  induction keys generalizing placed with
  | nil => simp [place]
  | cons k keys ih =>
    refine ih.trans ?_
    rw [List.mem_insert_iff, List.mem_cons]
    tauto

theorem nodup_place {placed : List (String × ℕ)} (h : placed.Nodup) (keys : List (String × ℕ)) :
    (place placed keys).Nodup := by
  induction keys generalizing placed with
  | nil => exact h
  | cons k keys ih => exact ih h.insert

theorem foldl_openPartition (placed keys : List (String × ℕ)) :
    keys.foldl openPartition (placed.map partitionEntry) =
      (place placed keys).map partitionEntry := by
  induction keys generalizing placed with
  | nil => rfl
  | cons k keys ih =>
    have hinsert : openPartition (placed.map partitionEntry) k =
        (placed.insert k).map partitionEntry := by
      rw [openPartition, List.insert.eq_def, List.insert.eq_def]
      simp only [List.elem_eq_mem, decide_eq_true_eq,
        List.mem_map_of_injective partitionEntry_injective]
      split <;> rfl
    rw [List.foldl_cons, hinsert, ih]
    rfl

/-- Opening partitions leaves no gap if none of them is opened over a gap. -/
theorem Explained.place {placed keys : List (String × ℕ)} (h : Explained placed)
    (hbounded : ∀ key ∈ keys, key.2 < 2 ^ 64)
    (hdown : ∀ key ∈ keys, ¬ Hidden key.1 → ∀ k < key.2, (key.1, k) ∈ placed ∨ (key.1, k) ∈ keys) :
    Explained (place placed keys) where
  nodup := nodup_place h.nodup keys
  bounded key hkey := (mem_place.mp hkey).elim (h.bounded key) (hbounded key)
  downward key hkey hvisible k hk := by
    rcases mem_place.mp hkey with hkey | hkey
    · exact mem_place.mpr (.inl (h.downward key hkey hvisible k hk))
    · exact mem_place.mpr (hdown key hkey hvisible k hk)

private theorem eq_singleton {α : Type} {l : List α} {a : α} (hnodup : l.Nodup) (ha : a ∈ l)
    (hall : ∀ b ∈ l, b = a) : l = [a] := by
  apply List.perm_singleton.mp
  rw [List.perm_ext_iff_of_nodup hnodup (List.nodup_singleton a)]
  intro b
  rw [List.mem_singleton]
  exact ⟨hall b, fun hb => hb ▸ ha⟩

/-- On an explained directory without other partitions of the offsets topic a broker in cluster
mode opens its offsets log and nothing else. -/
theorem openings_of_explained {placed : List (String × ℕ)} (h : Explained placed)
    (honly : ∀ k, (offsetsTopic, k) ∈ placed → k = 0) {entries : List DirEntry}
    (hperm : entries.Perm (placed.map partitionEntry)) :
    openings true entries = .ok [(offsetsTopic, 0)] := by
  obtain ⟨topics, hscan, hnodup, hcounts⟩ := scanDataDir_counts h hperm
  rw [openings, hscan]
  simp only [Bool.not_true, Bool.false_or, Except.ok.injEq]
  by_cases hzero : (offsetsTopic, 0) ∈ placed
  · have hnumbers : numbersOf placed offsetsTopic = [0] :=
      eq_singleton (nodup_numbersOf h.nodup offsetsTopic) (mem_numbersOf.mpr hzero)
        fun k hk => honly k (mem_numbersOf.mp hk)
    have hone : (offsetsTopic, 1) ∈ topics :=
      (hcounts offsetsTopic 1).mpr ⟨by decide, hzero, by rw [hnumbers]; rfl⟩
    have hserved : (topics.filter fun t => t.1 = offsetsTopic) = [(offsetsTopic, 1)] := by
      refine eq_singleton ((hnodup.of_map _).filter _)
        (List.mem_filter.mpr ⟨hone, decide_eq_true rfl⟩) fun t ht => ?_
      obtain ⟨hmem, htopic⟩ := List.mem_filter.mp ht
      obtain ⟨topic, n⟩ := t
      obtain rfl : topic = offsetsTopic := of_decide_eq_true htopic
      obtain ⟨-, -, rfl⟩ := (hcounts offsetsTopic n).mp hmem
      rw [hnumbers]
      rfl
    rw [hserved, if_pos (List.mem_map.mpr ⟨_, hone, rfl⟩)]
    rfl
  · have hnone : ∀ t ∈ topics, t.1 ≠ offsetsTopic := by
      rintro ⟨topic, n⟩ ht rfl
      exact hzero ((hcounts offsetsTopic n).mp ht).2.1
    have hserved : (topics.filter fun t => t.1 = offsetsTopic) = [] :=
      List.filter_eq_nil_iff.mpr fun t ht => by simpa using hnone t ht
    rw [hserved, if_neg fun hmem => ?_]
    · rfl
    · obtain ⟨t, ht, htopic⟩ := List.mem_map.mp hmem
      exact hnone t ht htopic

end Replog.Hosting

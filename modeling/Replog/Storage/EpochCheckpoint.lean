import Mathlib.Data.List.TakeWhile
import Mathlib.Data.Nat.Find
import Replog.Library.LittleEndian

/-!
# The leader-epoch checkpoint

The history of a replica as pairs of an epoch and its start offset. A follower's last epoch
and the leader's checkpoint decide where the two logs are taken to part.
-/

namespace Replog.Storage
open Replog.LittleEndian

structure EpochCheckpoint where
  /-- (epoch, start offset), oldest first. -/
  entries : List (ℕ × ℕ)
  deriving DecidableEq

namespace EpochCheckpoint

def currentEpoch (ck : EpochCheckpoint) : ℕ := ck.entries.getLast?.elim 0 Prod.fst

/-- Records that `epoch` starts at `startOffset`; `none` is the `InvalidInput` error. -/
def append (ck : EpochCheckpoint) (epoch startOffset : ℕ) : Option EpochCheckpoint :=
  match ck.entries.getLast? with
  | some (lastEpoch, lastStart) =>
    if epoch = lastEpoch ∧ startOffset = lastStart then some ck
    else if epoch ≤ lastEpoch ∨ startOffset < lastStart then none
    else some ⟨ck.entries ++ [(epoch, startOffset)]⟩
  | none => some ⟨ck.entries ++ [(epoch, startOffset)]⟩

/-- The loop of `endOffsetFor`: `known` is set once an entry at or below `epoch` was met. -/
def endOffsetLoop (epoch logEnd : ℕ) : Bool → List (ℕ × ℕ) → ℕ
  | known, [] => if known then logEnd else 0
  | known, (entryEpoch, entryStart) :: rest =>
    if epoch < entryEpoch then if known then entryStart else 0
    else endOffsetLoop epoch logEnd true rest

/-- Where `epoch` ended in this history of a log ending at `logEnd`. -/
def endOffsetFor (ck : EpochCheckpoint) (epoch logEnd : ℕ) : ℕ :=
  endOffsetLoop epoch logEnd false ck.entries

/-- Drops the entries that start at or past the new end. -/
def truncateTo (ck : EpochCheckpoint) (newNext : ℕ) : EpochCheckpoint :=
  ⟨ck.entries.takeWhile fun e => e.2 < newNext⟩

/-! ## The file

An entry takes sixteen bytes. The file is appended to and fsynced, or replaced as a whole. -/

def ENTRY_FILE_BYTES : ℕ := 16

def encodeEntry (e : ℕ × ℕ) : List UInt8 := leBytes 8 e.1 ++ leBytes 8 e.2

def encode (ck : EpochCheckpoint) : List UInt8 := ck.entries.flatMap encodeEntry

/-- Reads `n` entries, each of a later epoch than the one before it and not starting below it. -/
def parse : ℕ → List UInt8 → List (ℕ × ℕ) → Option (List (ℕ × ℕ))
  | 0, _, entries => some entries
  | n + 1, bytes, entries =>
    let epoch := leValue (bytes.take 8)
    let start := leValue ((bytes.drop 8).take 8)
    let broken := entries.getLast?.any fun last => epoch ≤ last.1 || start < last.2
    if broken then none else parse n (bytes.drop ENTRY_FILE_BYTES) (entries ++ [(epoch, start)])

/-- Opens the checkpoint of a partition; without a file it is empty, and a malformed file is an
error. -/
def load : Option (List UInt8) → Option EpochCheckpoint
  | none => some ⟨[]⟩
  | some bytes =>
    if bytes.length % ENTRY_FILE_BYTES ≠ 0 then none
    else (parse (bytes.length / ENTRY_FILE_BYTES) bytes []).map EpochCheckpoint.mk

/-! ## The checkpoint and the epochs of a log -/

/-- `n` is the first offset with epoch `e`. -/
def FirstAt (epochs : List ℕ) (e n : ℕ) : Prop :=
  epochs[n]? = some e ∧ ∀ m < n, epochs[m]? ≠ some e

/-- The checkpoint holds exactly the epochs of a log and their start offsets. -/
structure Exact (ck : EpochCheckpoint) (epochs : List ℕ) : Prop where
  ascending : ck.entries.Pairwise fun a b => a.1 < b.1
  mem_iff : ∀ e n, (e, n) ∈ ck.entries ↔ FirstAt epochs e n

theorem exists_firstAt {epochs : List ℕ} {e n : ℕ} (h : epochs[n]? = some e) :
    ∃ m ≤ n, FirstAt epochs e m := by
  have hex : ∃ m, epochs[m]? = some e := ⟨n, h⟩
  classical
  exact ⟨Nat.find hex, Nat.find_min' hex h, Nat.find_spec hex, fun m hm => Nat.find_min hex hm⟩

theorem FirstAt.unique {epochs : List ℕ} {e n m : ℕ} (hn : FirstAt epochs e n)
    (hm : FirstAt epochs e m) : n = m := by
  rcases Nat.lt_trichotomy n m with hlt | heq | hgt
  · exact absurd hn.1 (hm.2 n hlt)
  · exact heq
  · exact absurd hm.1 (hn.2 m hgt)

/-- A count of leading elements is where the predicate first fails. -/
theorem length_takeWhile_eq {α : Type} {p : α → Bool} {l : List α} {n : ℕ} (hn : n ≤ l.length)
    (hbelow : ∀ m a, m < n → l[m]? = some a → p a = true)
    (hat : ∀ a, l[n]? = some a → p a = false) : (l.takeWhile p).length = n := by
  induction l generalizing n with
  | nil => simpa using (Nat.le_zero.mp hn).symm
  | cons a l ih =>
    cases n with
    | zero => simp [hat a (by simp)]
    | succ n =>
      have ha := hbelow 0 a (Nat.succ_pos n) (by simp)
      rw [List.takeWhile_cons, if_pos ha, List.length_cons,
        ih (by simpa using hn) (fun m b hm hb => hbelow (m + 1) b (by omega) (by simpa using hb))
          (fun b hb => hat b (by simpa using hb))]

theorem lt_length_takeWhile {α : Type} {p : α → Bool} {l : List α} {d : ℕ} (hd : d < l.length)
    (h : ∀ m a, m ≤ d → l[m]? = some a → p a = true) : d < (l.takeWhile p).length := by
  induction l generalizing d with
  | nil => simp at hd
  | cons a l ih =>
    rw [List.takeWhile_cons, if_pos (h 0 a (Nat.zero_le d) (by simp)), List.length_cons]
    cases d with
    | zero => omega
    | succ d =>
      have hlt := ih (by simpa using hd) fun m b hm hb => h (m + 1) b (by omega) (by simpa using hb)
      omega

theorem of_lt_length_takeWhile {α : Type} {p : α → Bool} {l : List α} {d : ℕ} {a : α}
    (hd : d < (l.takeWhile p).length) (ha : l[d]? = some a) : p a = true := by
  obtain ⟨rest, hrest⟩ := List.takeWhile_prefix (l := l) p
  have hat : (l.takeWhile p)[d]? = some a := by
    rw [← ha]
    conv_rhs => rw [← hrest]
    rw [List.getElem?_append_left hd]
  exact List.mem_takeWhile_imp (List.mem_of_getElem? hat)

theorem get?_mono {epochs : List ℕ} (h : epochs.Pairwise (· ≤ ·)) {m n a b : ℕ} (hmn : m ≤ n)
    (ha : epochs[m]? = some a) (hb : epochs[n]? = some b) : a ≤ b := by
  obtain ⟨hm, rfl⟩ := List.getElem?_eq_some_iff.mp ha
  obtain ⟨hn, rfl⟩ := List.getElem?_eq_some_iff.mp hb
  rcases Nat.eq_or_lt_of_le hmn with rfl | hlt
  · exact le_rfl
  · exact List.pairwise_iff_getElem.mp h m n hm hn hlt

private theorem endOffsetLoop_exact {ck : EpochCheckpoint} {epochs : List ℕ} (h : ck.Exact epochs)
    (hmono : epochs.Pairwise (· ≤ ·)) (c : ℕ) {p rest : List (ℕ × ℕ)}
    (hsplit : ck.entries = p ++ rest) (hpre : ∀ e ∈ p, e.1 ≤ c) :
    endOffsetLoop c epochs.length (!p.isEmpty) rest =
      (epochs.takeWhile fun e => e ≤ c).length := by
  induction rest generalizing p with
  | nil =>
    -- every epoch of the log is an entry, so all are at or below `c`
    have hall : ∀ m a : ℕ, epochs[m]? = some a → a ≤ c := by
      intro m a ha
      obtain ⟨k, -, hfirst⟩ := exists_firstAt ha
      have hmem := (h.mem_iff a k).mpr hfirst
      rw [hsplit, List.append_nil] at hmem
      exact hpre _ hmem
    have hcount : (epochs.takeWhile fun e => e ≤ c).length = epochs.length :=
      length_takeWhile_eq le_rfl (fun m a _ ha => by simpa using hall m a ha) (by simp)
    rw [hcount]
    cases p with
    | nil =>
      have hnil : epochs = [] := by
        by_contra hne
        obtain ⟨a, l, rfl⟩ := List.exists_cons_of_ne_nil hne
        obtain ⟨k, -, hfirst⟩ := exists_firstAt (show (a :: l)[0]? = some a by simp)
        have hmem := (h.mem_iff a k).mpr hfirst
        simp [hsplit] at hmem
      simp [endOffsetLoop, hnil]
    | cons => simp [endOffsetLoop]
  | cons entry rest ih =>
    obtain ⟨e, s⟩ := entry
    by_cases hlater : c < e
    · have hfirst : FirstAt epochs e s := (h.mem_iff e s).mp (by simp [hsplit])
      have hasc := h.ascending
      rw [hsplit, List.pairwise_append] at hasc
      -- an epoch below `e` has its entry in `p`
      have hbelow : ∀ a k, a < e → (a, k) ∈ ck.entries → (a, k) ∈ p := by
        intro a k ha hmem
        rw [hsplit, List.mem_append, List.mem_cons] at hmem
        rcases hmem with hmem | heq | hmem
        · exact hmem
        · cases heq
          omega
        · have hlt := (List.pairwise_cons.mp hasc.2.1).1 _ hmem
          dsimp only at hlt
          omega
      have hlt : ∀ m a, m < s → epochs[m]? = some a → a < e ∧ ∃ k, (a, k) ∈ p := by
        intro m a hm ha
        have hle := get?_mono hmono hm.le ha hfirst.1
        have hne : a ≠ e := fun heq => hfirst.2 m hm (heq ▸ ha)
        obtain ⟨k, -, hk⟩ := exists_firstAt ha
        exact ⟨by omega, k, hbelow a k (by omega) ((h.mem_iff a k).mpr hk)⟩
      have hsLe : s ≤ epochs.length := by
        obtain ⟨hs, -⟩ := List.getElem?_eq_some_iff.mp hfirst.1
        exact hs.le
      rw [length_takeWhile_eq hsLe
        (fun m a hm ha => by
          obtain ⟨-, k, hk⟩ := hlt m a hm ha
          simpa using hpre _ hk)
        (fun a ha => by
          rw [hfirst.1] at ha
          cases ha
          simpa using hlater)]
      rw [endOffsetLoop, if_pos hlater]
      cases p with
      | nil =>
        -- nothing is known, and indeed the log starts with `e`
        have hzero : s = 0 := by
          by_contra hne
          obtain ⟨hs, -⟩ := List.getElem?_eq_some_iff.mp hfirst.1
          obtain ⟨-, k, hk⟩ := hlt 0 epochs[0] (by omega) (by simp)
          simp at hk
        simp [hzero]
      | cons => simp
    · rw [endOffsetLoop, if_neg hlater]
      have hstep := ih (p := p ++ [(e, s)]) (by simp [hsplit]) fun x hx => by
        rcases List.mem_append.mp hx with hx | hx
        · exact hpre x hx
        · rw [List.mem_singleton.mp hx]
          exact Nat.le_of_not_lt hlater
      rwa [show (!(p ++ [(e, s)]).isEmpty) = true by simp] at hstep

/-- An exact checkpoint answers with the number of records up to the epoch asked for. -/
theorem Exact.endOffsetFor_eq {ck : EpochCheckpoint} {epochs : List ℕ} (h : ck.Exact epochs)
    (hmono : epochs.Pairwise (· ≤ ·)) (c : ℕ) :
    ck.endOffsetFor c epochs.length = (epochs.takeWhile fun e => e ≤ c).length := by
  simpa [endOffsetFor] using endOffsetLoop_exact h hmono c (List.nil_append _).symm (by simp)

private theorem Exact.starts_ascending {ck : EpochCheckpoint} {epochs : List ℕ} (h : ck.Exact epochs)
    (hmono : epochs.Pairwise (· ≤ ·)) : ck.entries.Pairwise fun a b => a.2 < b.2 := by
  refine h.ascending.imp_of_mem fun {a b} ha hb hlt => ?_
  by_contra hge
  have hle := get?_mono hmono (Nat.le_of_not_lt hge) ((h.mem_iff b.1 b.2).mp hb).1
    ((h.mem_iff a.1 a.2).mp ha).1
  omega

/-- Truncation keeps a checkpoint exact for the log that is left. -/
theorem Exact.truncateTo {ck : EpochCheckpoint} {epochs : List ℕ} (h : ck.Exact epochs)
    (hmono : epochs.Pairwise (· ≤ ·)) (n : ℕ) : (ck.truncateTo n).Exact (epochs.take n) := by
  have hmem : ∀ e s, (e, s) ∈ (ck.truncateTo n).entries ↔ (e, s) ∈ ck.entries ∧ s < n := by
    intro e s
    have hasc := h.starts_ascending hmono
    rw [EpochCheckpoint.truncateTo]
    generalize ck.entries = es at hasc ⊢
    induction es with
    | nil => simp
    | cons x es ih =>
      obtain ⟨hx, hrest⟩ := List.pairwise_cons.mp hasc
      by_cases hlt : x.2 < n
      · simp only [List.takeWhile_cons, hlt, decide_true, if_true, List.mem_cons, ih hrest]
        constructor
        · rintro (rfl | ⟨hmem, hs⟩)
          · exact ⟨.inl rfl, hlt⟩
          · exact ⟨.inr hmem, hs⟩
        · rintro ⟨rfl | hmem, hs⟩
          · exact .inl rfl
          · exact .inr ⟨hmem, hs⟩
      · simp only [List.takeWhile_cons, hlt, decide_false, Bool.false_eq_true, if_false,
          List.not_mem_nil, false_iff, List.mem_cons, not_and]
        rintro (rfl | hmem) hs
        · exact hlt hs
        · have hxs := hx _ hmem
          dsimp only at hxs
          omega
  refine ⟨h.ascending.sublist (List.takeWhile_sublist _), fun e s => ?_⟩
  rw [hmem, h.mem_iff]
  constructor
  · rintro ⟨⟨hat, hbelow⟩, hs⟩
    refine ⟨by rw [List.getElem?_take_of_lt hs, hat], fun m hm => ?_⟩
    rw [List.getElem?_take_of_lt (by omega)]
    exact hbelow m hm
  · rintro ⟨hat, hbelow⟩
    have hs : s < n := by
      by_contra hge
      rw [List.getElem?_eq_none (by rw [List.length_take]; omega)] at hat
      cases hat
    refine ⟨⟨by rwa [List.getElem?_take_of_lt hs] at hat, fun m hm => ?_⟩, hs⟩
    have hm' := hbelow m hm
    rwa [List.getElem?_take_of_lt (by omega)] at hm'

theorem Exact.nil : (⟨[]⟩ : EpochCheckpoint).Exact [] :=
  ⟨.nil, fun e n => by simp [FirstAt]⟩

theorem firstAt_snoc {epochs : List ℕ} {a e n : ℕ} :
    FirstAt (epochs ++ [a]) e n ↔
      FirstAt epochs e n ∨ (e = a ∧ n = epochs.length ∧ a ∉ epochs) := by
  constructor
  · rintro ⟨hat, hbelow⟩
    rcases Nat.lt_trichotomy n epochs.length with hlt | rfl | hgt
    · refine .inl ⟨by rwa [List.getElem?_append_left hlt] at hat, fun m hm => ?_⟩
      have hm' := hbelow m hm
      rwa [List.getElem?_append_left (by omega)] at hm'
    · simp only [List.getElem?_concat_length, Option.some.injEq] at hat
      refine .inr ⟨hat.symm, rfl, fun hmem => ?_⟩
      obtain ⟨m, hm, hma⟩ := List.getElem_of_mem hmem
      refine hbelow m hm ?_
      rw [List.getElem?_append_left hm, List.getElem?_eq_getElem hm, hma, hat]
    · rw [List.getElem?_eq_none (by simp; omega)] at hat
      cases hat
  · rintro (⟨hat, hbelow⟩ | ⟨rfl, rfl, hnot⟩)
    · obtain ⟨hn, -⟩ := List.getElem?_eq_some_iff.mp hat
      refine ⟨by rwa [List.getElem?_append_left hn], fun m hm => ?_⟩
      rw [List.getElem?_append_left (by omega)]
      exact hbelow m hm
    · refine ⟨List.getElem?_concat_length, fun m hm heq => hnot ?_⟩
      rw [List.getElem?_append_left hm] at heq
      exact List.mem_of_getElem? heq

/-- A record of the epoch already recorded last leaves an exact checkpoint exact. -/
theorem Exact.snoc {ck : EpochCheckpoint} {epochs : List ℕ} (h : ck.Exact epochs) {e : ℕ}
    (he : e ∈ epochs) : ck.Exact (epochs ++ [e]) := by
  refine ⟨h.ascending, fun a n => ?_⟩
  rw [h.mem_iff, firstAt_snoc]
  constructor
  · exact .inl
  · rintro (hfirst | ⟨-, -, hnot⟩)
    · exact hfirst
    · exact absurd he hnot

/-- Recording a new epoch at the log's end and then appending a record of it. -/
theorem Exact.append_snoc {ck ck' : EpochCheckpoint} {epochs : List ℕ} (h : ck.Exact epochs)
    {e : ℕ} (hnew : ∀ a ∈ epochs, a < e) (hck : ck.append e epochs.length = some ck') :
    ck'.Exact (epochs ++ [e]) := by
  have hentries : ∀ a s, (a, s) ∈ ck.entries → a < e ∧ s < epochs.length := by
    intro a s hmem
    have hat := ((h.mem_iff a s).mp hmem).1
    exact ⟨hnew a (List.mem_of_getElem? hat), (List.getElem?_eq_some_iff.mp hat).1⟩
  have hck' : ck' = ⟨ck.entries ++ [(e, epochs.length)]⟩ := by
    rw [append] at hck
    cases hlast : ck.entries.getLast? with
    | none => simpa [hlast] using hck.symm
    | some last =>
      have hlt := hentries last.1 last.2 (List.mem_of_getLast? hlast)
      rw [hlast] at hck
      dsimp only at hck
      rw [if_neg (by omega), if_neg (by omega)] at hck
      exact (Option.some.inj hck).symm
  have hnot : e ∉ epochs := fun hmem => Nat.lt_irrefl e (hnew e hmem)
  subst hck'
  refine ⟨List.pairwise_append.mpr ⟨h.ascending, by simp, fun x hx y hy => ?_⟩, fun a n => ?_⟩
  · rw [List.mem_singleton.mp hy]
    exact (hentries x.1 x.2 hx).1
  · rw [List.mem_append, List.mem_singleton, h.mem_iff, firstAt_snoc, Prod.mk.injEq]
    constructor
    · rintro (hfirst | ⟨rfl, rfl⟩)
      · exact .inl hfirst
      · exact .inr ⟨rfl, rfl, hnot⟩
    · rintro (hfirst | ⟨rfl, rfl, -⟩)
      · exact .inl hfirst
      · exact .inr ⟨rfl, rfl⟩

end EpochCheckpoint
end Replog.Storage

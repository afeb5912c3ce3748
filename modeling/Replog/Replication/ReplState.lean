import Mathlib.Data.List.Sort
import Mathlib.Data.Nat.Notation

/-!
# Replication state of one replica

What a broker keeps under the replica's mutex, and the blocks of code that run while they hold
it: the checks of a produce and of a follower's fetch, the high-water mark, role changes, and the
proposal and installation of an ISR. Each is a function of the state the lock protects.
-/

namespace Replog.Replication

abbrev BrokerId := ℕ

inductive Acks where
  | none
  | written
  | durable
  | all
  deriving DecidableEq

inductive ErrorCode where
  | unknownTopicOrPartition
  | offsetOutOfRange
  | storage
  | malformed
  | unknownMember
  | notLeader
  | fencedEpoch
  | notEnoughReplicas
  deriving DecidableEq

abbrev KeyValue := Option (List UInt8) × List UInt8

/-- The role, epoch and fetcher generation that a check under the lock saw. -/
structure Authority where
  leader : Bool
  epoch : ℕ
  generation : ℕ
  deriving DecidableEq

/-- A produce that passed the precheck. -/
structure Ticket where
  authority : Authority
  acks : Acks
  records : List KeyValue
  deriving DecidableEq

/-- An acks=all produce that waits for the high-water mark; the reply channel is its ticket. -/
structure Pending where
  lastOffset : ℕ
  base : ℕ
  count : ℕ
  ticket : Ticket
  deriving DecidableEq

/-- The partition's entry of the cluster metadata, with the version of the metadata. -/
structure PartitionMeta where
  version : ℕ
  leader : Option BrokerId
  leaderEpoch : ℕ
  replicas : List BrokerId
  isr : List BrokerId
  deriving DecidableEq

structure FetchRequest where
  call : ℕ
  follower : BrokerId
  leaderEpoch : ℕ
  offset : ℕ
  deriving DecidableEq

structure ReplState where
  epoch : ℕ := 0
  isLeader : Bool := false
  isr : List BrokerId := []
  replicas : List BrokerId := []
  /-- The next offset each follower asked for, and when it was last caught up. -/
  matchOffsets : BrokerId → Option (ℕ × ℕ) := fun _ => none
  pendingAll : List Pending := []
  fetcherGeneration : ℕ := 0
  fetcherAlive : Bool := false
  leaderSince : ℕ := 0
  /-- The metadata version whose ISR `isr` is a copy of. The code does not keep it. -/
  isrVersion : ℕ := 0

namespace ReplState

def authority (st : ReplState) : Authority := ⟨st.isLeader, st.epoch, st.fetcherGeneration⟩

/-- The checks of a produce before its records are queued. -/
def precheck (st : ReplState) (minInsyncReplicas : ℕ) (acks : Acks) (leaderEpoch : ℕ) :
    Except ErrorCode Authority :=
  if !st.isLeader then .error .notLeader
  else if leaderEpoch ≠ 0 ∧ leaderEpoch ≠ st.epoch then .error .fencedEpoch
  else if acks = .all ∧ st.isr.length < minInsyncReplicas then .error .notEnoughReplicas
  else .ok st.authority

/-- The offset below which a follower has everything, as far as its fetches tell. -/
def matched (st : ReplState) (follower : BrokerId) : ℕ :=
  (st.matchOffsets follower).elim 0 Prod.fst

/-- The minimum over the log end and the other members of the ISR. -/
def isrMin (st : ReplState) (self : BrokerId) (logEnd : ℕ) : ℕ :=
  (st.isr.filter (· ≠ self)).foldl (fun hwm follower => min hwm (st.matched follower)) logEnd

/-- Takes out the entries that the high-water mark covers. -/
def drainPending (st : ReplState) (hwm : ℕ) : List Pending × ReplState :=
  (st.pendingAll.filter (·.lastOffset < hwm),
    { st with pendingAll := st.pendingAll.filter (¬ ·.lastOffset < hwm) })

/-- The locked part of `advance_hwm`: the new high-water mark and the covered produces. -/
def advanceHwm (st : ReplState) (self : BrokerId) (logEnd current : ℕ) :
    ℕ × List Pending × ReplState :=
  if !st.isLeader then (current, [], st)
  else (max (st.isrMin self logEnd) current,
    st.drainPending (max (st.isrMin self logEnd) current))

/-- The checks and the progress tracking of a follower's fetch. -/
def acceptFetch (st : ReplState) (now logEnd : ℕ) (req : FetchRequest) :
    Except ErrorCode ReplState :=
  if !st.isLeader then .error .notLeader
  else if req.leaderEpoch ≠ st.epoch then .error .fencedEpoch
  else
    let caughtUp := if logEnd ≤ req.offset then now
      else (st.matchOffsets req.follower).elim st.leaderSince Prod.snd
    .ok { st with matchOffsets := fun f =>
      if f = req.follower then some (req.offset, caughtUp) else st.matchOffsets f }

/-- What `apply_metadata` goes on with after its locked block. -/
inductive Transition where
  | unchanged
  | leading
  /-- A fetcher is started when the partition has a leader. -/
  | following (leader : Option BrokerId)
  deriving DecidableEq

/-- The locked block of `apply_metadata` for a broker that hosts the partition. The list is the
produces it fails. -/
def applyMetadata (st : ReplState) (self : BrokerId) (now : ℕ) (p : PartitionMeta) :
    Transition × List Pending × ReplState :=
  let becomingLeader := decide (p.leader = some self)
  if st.epoch = p.leaderEpoch ∧ st.isLeader = becomingLeader then
    let st := { st with isr := p.isr, isrVersion := p.version }
    if !st.isLeader && !st.fetcherAlive && p.leader.isSome then
      (.following p.leader, [],
        { st with fetcherGeneration := st.fetcherGeneration + 1, fetcherAlive := true })
    else (.unchanged, [], st)
  else
    let st := { st with
      epoch := p.leaderEpoch, replicas := p.replicas, isr := p.isr, isrVersion := p.version
      isLeader := becomingLeader, fetcherGeneration := st.fetcherGeneration + 1 }
    if becomingLeader then
      (.leading, [],
        { st with matchOffsets := fun _ => none, leaderSince := now, fetcherAlive := false })
    else
      (.following p.leader, st.pendingAll,
        { st with pendingAll := [], fetcherAlive := p.leader.isSome })

/-- In the ISR iff caught up within the lag window; a follower that never fetched gets the window
measured from when this leader took over. -/
def desiredIsr (st : ReplState) (self : BrokerId) (lag now : ℕ) : List BrokerId :=
  let caughtUp := fun follower => (st.matchOffsets follower).elim st.leaderSince Prod.snd
  (self :: (st.replicas.filter (· ≠ self)).filter
    fun follower => now - caughtUp follower ≤ lag).insertionSort (· ≤ ·)

/-- The locked part of `isr_maintenance`: an epoch and an ISR to propose, if the ISR is to
change. -/
def isrProposal (st : ReplState) (self : BrokerId) (lag now : ℕ) :
    Option (ℕ × List BrokerId) :=
  if !st.isLeader then none
  else if st.desiredIsr self lag now = st.isr.insertionSort (· ≤ ·) then none
  else some (st.epoch, st.desiredIsr self lag now)

/-- The locked block that follows an accepted `AlterIsr`. -/
def installIsr (st : ReplState) (epoch : ℕ) (desired : List BrokerId) (version : ℕ) :
    ReplState :=
  if st.isLeader ∧ st.epoch = epoch then { st with isr := desired, isrVersion := version }
  else st

def fetcherExit (st : ReplState) (generation : ℕ) : ReplState :=
  if st.fetcherGeneration = generation then { st with fetcherAlive := false } else st

variable {st : ReplState} {self : BrokerId} {now : ℕ} {p : PartitionMeta}

theorem precheck_eq_ok {minInsyncReplicas leaderEpoch : ℕ} {acks : Acks} {authority : Authority}
    (h : st.precheck minInsyncReplicas acks leaderEpoch = .ok authority) :
    st.isLeader = true ∧ authority = st.authority ∧
      (acks = .all → minInsyncReplicas ≤ st.isr.length) := by
  simp only [precheck] at h
  split_ifs at h with hleader hepoch hisr
  refine ⟨by simpa using hleader, by cases h; rfl, fun hall => ?_⟩
  by_contra hlt
  exact hisr ⟨hall, by omega⟩

@[simp] theorem advanceHwm_authority (logEnd current : ℕ) :
    (st.advanceHwm self logEnd current).2.2.authority = st.authority := by
  simp only [advanceHwm]
  split <;> rfl

private theorem foldl_min_le (m : BrokerId → ℕ) (l : List BrokerId) (n : ℕ) :
    l.foldl (fun hwm f => min hwm (m f)) n ≤ n ∧
      ∀ f ∈ l, l.foldl (fun hwm f => min hwm (m f)) n ≤ m f := by
  induction l generalizing n with
  | nil => simp
  | cons f l ih =>
    obtain ⟨hle, hall⟩ := ih (min n (m f))
    rw [List.foldl_cons]
    refine ⟨hle.trans (min_le_left _ _), fun g hg => ?_⟩
    rcases List.mem_cons.mp hg with rfl | hg
    · exact hle.trans (min_le_right _ _)
    · exact hall g hg

theorem isrMin_le_logEnd (st : ReplState) (self : BrokerId) (logEnd : ℕ) :
    st.isrMin self logEnd ≤ logEnd :=
  (foldl_min_le _ _ _).1

theorem isrMin_le_matched {f : BrokerId} (hf : f ∈ st.isr) (hne : f ≠ self) (logEnd : ℕ) :
    st.isrMin self logEnd ≤ st.matched f :=
  (foldl_min_le _ _ _).2 f (List.mem_filter.mpr ⟨hf, by simpa using hne⟩)

theorem matched_pos (st : ReplState) {f : BrokerId} (h : 0 < st.matched f) :
    ∃ t, st.matchOffsets f = some (st.matched f, t) := by
  rw [matched] at h ⊢
  cases hm : st.matchOffsets f with
  | none => simp [hm] at h
  | some nt => exact ⟨nt.2, rfl⟩

/-- What a leader's advance does, entry by entry. -/
theorem advanceHwm_leader (h : st.isLeader = true) (logEnd current : ℕ) :
    st.advanceHwm self logEnd current =
      (max (st.isrMin self logEnd) current,
        st.drainPending (max (st.isrMin self logEnd) current)) := by
  simp [advanceHwm, h]

theorem advanceHwm_not_leader (h : st.isLeader = false) (logEnd current : ℕ) :
    st.advanceHwm self logEnd current = (current, [], st) := by
  simp [advanceHwm, h]

theorem le_advanceHwm (st : ReplState) (self : BrokerId) (logEnd current : ℕ) :
    current ≤ (st.advanceHwm self logEnd current).1 := by
  rw [advanceHwm]
  split
  · exact le_rfl
  · exact le_max_right _ _

theorem isrProposal_eq_some {lag leaderEpoch : ℕ} {isr : List BrokerId}
    (h : st.isrProposal self lag now = some (leaderEpoch, isr)) :
    st.isLeader = true ∧ leaderEpoch = st.epoch := by
  rw [isrProposal] at h
  split_ifs at h with hleader hsame
  cases h
  exact ⟨by simpa using hleader, rfl⟩

theorem acceptFetch_eq_ok {logEnd : ℕ} {req : FetchRequest} {st' : ReplState}
    (h : st.acceptFetch now logEnd req = .ok st') :
    st.isLeader = true ∧ req.leaderEpoch = st.epoch ∧
      ∃ t, st' = { st with matchOffsets := fun f =>
        if f = req.follower then some (req.offset, t) else st.matchOffsets f } := by
  simp only [acceptFetch] at h
  split_ifs at h with hleader hepoch
  · cases h
    exact ⟨by simpa using hleader, not_not.mp hepoch, _, rfl⟩
  · cases h
    exact ⟨by simpa using hleader, not_not.mp hepoch, _, rfl⟩

theorem acceptFetch_authority {logEnd : ℕ} {req : FetchRequest} {st' : ReplState}
    (h : st.acceptFetch now logEnd req = .ok st') : st'.authority = st.authority := by
  obtain ⟨-, -, t, rfl⟩ := acceptFetch_eq_ok h
  rfl

@[simp] theorem installIsr_authority (epoch : ℕ) (desired : List BrokerId) (version : ℕ) :
    (st.installIsr epoch desired version).authority = st.authority := by
  simp only [installIsr]
  split <;> rfl

@[simp] theorem fetcherExit_authority (generation : ℕ) :
    (st.fetcherExit generation).authority = st.authority := by
  simp only [fetcherExit]
  split <;> rfl

/-- Whatever branch it takes, `apply_metadata` leaves role, epoch and ISR as the metadata has
them. -/
theorem applyMetadata_follows (st : ReplState) (self : BrokerId) (now : ℕ)
    (p : PartitionMeta) :
    (st.applyMetadata self now p).2.2.epoch = p.leaderEpoch ∧
      (st.applyMetadata self now p).2.2.isLeader = decide (p.leader = some self) ∧
      (st.applyMetadata self now p).2.2.isr = p.isr ∧
      (st.applyMetadata self now p).2.2.isrVersion = p.version := by
  simp only [applyMetadata]
  split
  · rename_i hsame
    split <;> exact ⟨hsame.1, hsame.2, rfl, rfl⟩
  · split <;> simp_all

/-- The generation only grows, and it grows whenever role or epoch change. -/
theorem applyMetadata_generation (st : ReplState) (self : BrokerId) (now : ℕ)
    (p : PartitionMeta) :
    st.fetcherGeneration < (st.applyMetadata self now p).2.2.fetcherGeneration ∨
      (st.applyMetadata self now p).2.2.authority = st.authority := by
  simp only [applyMetadata]
  split
  · split
    · exact .inl (Nat.lt_succ_self _)
    · exact .inr rfl
  · split <;> exact .inl (Nat.lt_succ_self _)

theorem applyMetadata_unchanged (h : (st.applyMetadata self now p).1 = .unchanged) :
    (st.applyMetadata self now p).2.2.authority = st.authority := by
  simp only [applyMetadata] at h ⊢
  split_ifs at h ⊢ with hsame halive hleader
  rfl

/-- What is left in the ledger was there, and the role is the same, was not a leader's, or goes
from one epoch led to another. -/
theorem applyMetadata_pending {x : Pending}
    (h : x ∈ (st.applyMetadata self now p).2.2.pendingAll) : x ∈ st.pendingAll ∧
      ((st.applyMetadata self now p).2.2.authority = st.authority ∨ st.isLeader = false ∨
        (p.leaderEpoch ≠ st.epoch ∧ p.leader = some self)) := by
  simp only [applyMetadata] at h ⊢
  split_ifs at h ⊢ with hsame halive hleader
  · refine ⟨h, .inr (.inl ?_)⟩
    simp only [Bool.and_eq_true, Bool.not_eq_true'] at halive
    exact halive.1.1
  · exact ⟨h, .inl rfl⟩
  · refine ⟨h, .inr ?_⟩
    cases hold : st.isLeader with
    | false => exact .inl rfl
    | true =>
      rw [hold] at hsame
      exact .inr ⟨fun heq => hsame ⟨heq.symm, hleader.symm⟩, by simpa using hleader⟩
  · cases h

/-- A leader's progress table after a role change is empty. -/
theorem applyMetadata_matched (h : (st.applyMetadata self now p).2.2.isLeader = true) :
    ((st.applyMetadata self now p).2.2.authority = st.authority ∧
      (st.applyMetadata self now p).2.2.matchOffsets = st.matchOffsets) ∨
      (st.applyMetadata self now p).2.2.matchOffsets = fun _ => none := by
  simp only [applyMetadata] at h ⊢
  split_ifs at h ⊢ with hsame halive hleader
  · simp_all
  · exact .inl ⟨rfl, rfl⟩
  · exact .inr rfl
  · simp_all

theorem applyMetadata_leading (h : (st.applyMetadata self now p).1 = .leading) :
    p.leader = some self := by
  simp only [applyMetadata] at h
  split_ifs at h with hsame halive hleader
  simpa using hleader

theorem applyMetadata_following {leader : Option BrokerId}
    (h : (st.applyMetadata self now p).1 = .following leader) :
    p.leader ≠ some self ∧ leader = p.leader := by
  simp only [applyMetadata] at h
  split_ifs at h with hsame halive hleader
  · cases h
    refine ⟨fun heq => ?_, rfl⟩
    simp [hsame.2, heq] at halive
  · cases h
    exact ⟨by simpa using hleader, rfl⟩

end ReplState
end Replog.Replication

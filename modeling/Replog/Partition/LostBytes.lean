import Replog.Partition.FailedFsyncs

/-!
# Lost bytes

The bytes that a failed fsync loses stay missing under all that is written behind them. A record
keeps clear of them if its append comes later, and an append that comes with the failed fsync is
answered with an error. So a durable append is answered when its records are on the medium, unless
a byte of them gets lost while it waits.
-/

namespace Replog.Partition
open Replog.Storage

variable {crc : List UInt8 → UInt32} {config : LogConfig}

/-- No byte gets lost of the records that `count` offsets from `base` on have. -/
def Spared (gone : Gone) (rs : List Record) (base count : ℕ) : Prop :=
  ∀ o, base ≤ o → o < base + count → ∀ p ∈ gone, ¬ IsByteOf rs o p

/-- No byte gets lost of a record that an append waits for. -/
def Mishap.SparesWaiting (crc : List UInt8 → UInt32) (config : LogConfig) (t : Thread)
    (m : Mishap) : Prop :=
  ∀ rs, Serves crc config t rs → ∀ p ∈ t.pending, Spared m.lost rs p.baseOffset p.count

/-- A truncation neither fails nor cuts off waiting records, and no byte of these gets lost. -/
def Mishap.Harmless (crc : List UInt8 → UInt32) (config : LogConfig) (t : Thread) (i : Input)
    (m : Mishap) : Prop :=
  m.Spares t i ∧ m.SparesWaiting crc config t

/-- The bytes that are lost are in the files, and none of a record that an append waits for. -/
structure Unharmed (t : Thread) (gone : Gone) (rs : List Record) : Prop where
  inside : gone.Inside t.fs.dir
  waiting : ∀ p ∈ t.pending, Spared gone rs p.baseOffset p.count

private theorem spared_nil (rs : List Record) (base count : ℕ) : Spared [] rs base count :=
  fun _ _ _ _ hp => absurd hp List.not_mem_nil

theorem Spared.mono {gone more : Gone} {rs : List Record} {base count : ℕ}
    (h : Spared gone rs base count) (hsub : ∀ p ∈ more, p ∈ gone) : Spared more rs base count :=
  fun o hge hlt p hp => h o hge hlt p (hsub p hp)

theorem Spared.append {gone more : Gone} {rs : List Record} {base count : ℕ}
    (h : Spared gone rs base count) (hmore : Spared more rs base count) :
    Spared (gone ++ more) rs base count := by
  intro o hge hlt p hp
  rcases List.mem_append.mp hp with hold | hnew
  · exact h o hge hlt p hold
  · exact hmore o hge hlt p hnew

/-- Records that two logs share have their bytes in the same places. -/
theorem Spared.congr {gone : Gone} {rs rs' : List Record} {base count : ℕ}
    (h : Spared gone rs base count) (hside : rs <+: rs' ∨ rs' <+: rs)
    (hle : base + count ≤ rs.length) (hle' : base + count ≤ rs'.length) :
    Spared gone rs' base count := by
  intro o hge hlt p hp hbyte
  refine h o hge hlt p hp ?_
  rcases hside with ⟨more, rfl⟩ | ⟨more, rfl⟩
  · exact (isByteOf_append (by omega) more p).mp hbyte
  · exact (isByteOf_append (by omega) more p).mpr hbyte

/-- What is lost after a step: some of what was lost before, and what the step loses. -/
theorem endure_gone {policy : FsyncPolicy} {t : Thread} {m : Mishap} {i : Input} {ops : List FsOp}
    (hfs : (t.takeUnder crc policy m.faults i).2.fs = t.fs.advance ops) (gone : Gone) :
    (t.endure crc policy m gone i).2.2 =
      ops.foldl (fun gone op => op.forget gone) gone ++ m.lost := by
  rw [Thread.endure, hfs]
  dsimp only [Fs.advance]
  rw [List.drop_left]

section Steps

variable {policy : FsyncPolicy} {t : Thread} {gone : Gone} {rs rs' : List Record} {i : Input}
  {m : Mishap}

theorem Mishap.OfFsync.inside (hm : m.OfFsync crc policy t i) :
    Gone.Inside m.lost (t.takeUnder crc policy m.faults i).2.fs.dir := by
  intro p hp
  obtain ⟨-, hany⟩ := hm.lost p hp
  obtain ⟨f, hf, hin⟩ := Option.any_eq_true _ _ |>.mp hany
  exact ⟨f, hf, of_decide_eq_true (Bool.and_eq_true_iff.mp hin).2⟩

private theorem Mishap.OfFsync.lost_eq_nil (hm : m.OfFsync crc policy t i)
    (hclear : hit (t.opsOf crc policy i) m.faults = .none) : m.lost = [] := by
  refine List.eq_nil_iff_forall_not_mem.mpr fun p hp => ?_
  have hhit := (hm.lost p hp).1
  rw [hclear] at hhit
  cases hhit

/-- The records of an append that has been asked for keep clear of what is lost. -/
theorem GoesTo.spared (hgoing : Going crc config t [] rs) (h : Unharmed t gone rs)
    (hm : m.OfFsync crc policy t i)
    (hspares : ∀ p ∈ t.pending, Spared m.lost rs p.baseOffset p.count)
    (hgoes : GoesTo crc config t rs (hit (t.opsOf crc policy i) m.faults = none)
      (t.takeUnder crc policy m.faults i) rs') {base count : ℕ}
    (hasked : t.Asked rs (hit (t.opsOf crc policy i) m.faults = none) base count)
    (hle : base + count ≤ rs'.length) :
    Spared (t.endure crc policy m gone i).2.2 rs' base count := by
  obtain ⟨k, opened, hinv, -⟩ := hgoing
  obtain ⟨ops, hfs⟩ := hgoes.files
  rw [endure_gone hfs]
  rcases hasked with ⟨p, hp, rfl, rfl⟩ | ⟨hnew, hclear⟩
  · have hold := ((h.waiting p hp).mono fun _ => mem_of_mem_forgets ops).append (hspares p hp)
    have hwaits := hinv.pending p hp
    have hlast := hwaits.last_eq
    have hlt := hwaits.last_lt
    exact hold.congr hgoes.longer_or_shorter (by omega) hle
  · rw [hm.lost_eq_nil hclear, List.append_nil]
    intro o hge hlt p hp
    rcases hgoes.longer_or_shorter with ⟨more, rfl⟩ | hprefix
    · exact h.inside.not_isByteOf (s := t.state) hinv.log.represents more (by omega) p
        (mem_of_mem_forgets ops hp)
    · have hshorter := hprefix.length_le
      omega

theorem GoesTo.unharmed (hgoing : Going crc config t [] rs) (h : Unharmed t gone rs)
    (hm : m.OfFsync crc policy t i)
    (hspares : ∀ p ∈ t.pending, Spared m.lost rs p.baseOffset p.count)
    (hgoes : GoesTo crc config t rs (hit (t.opsOf crc policy i) m.faults = none)
      (t.takeUnder crc policy m.faults i) rs') :
    Unharmed (t.endure crc policy m gone i).2.1 (t.endure crc policy m gone i).2.2 rs' := by
  refine ⟨?_, fun p hp => hgoes.spared hgoing h hm hspares (hgoes.waiting p hp) ?_⟩
  · obtain ⟨ops, hfs⟩ := hgoes.files
    rw [endure_gone hfs]
    refine Gone.Inside.append ?_ hm.inside
    show Gone.Inside _ (t.takeUnder crc policy m.faults i).2.fs.dir
    rw [hfs]
    exact h.inside.advance ops
  · obtain ⟨k, opened, hinv, -⟩ := hgoes.going
    have hwaits := hinv.pending p hp
    have hlast := hwaits.last_eq
    have hlt := hwaits.last_lt
    omega

end Steps

/-! ## Runs -/

theorem Thread.Endured.unharmed (hvalid : config.Valid) (hpolicy : config.fsync ≠ .os) {t : Thread}
    {gone : Gone} (h : t.Endured crc config (fun t i m => m.Harmless crc config t i) gone) :
    ∃ rs, Going crc (Partition.logConfig config) t [] rs ∧ Unharmed t gone rs := by
  induction h with
  | @spawned d clock epochFile t h hspawn =>
    obtain ⟨rs, hgoing⟩ := spawn_going hvalid h hspawn
    exact ⟨rs, hgoing, fun _ hp => absurd hp List.not_mem_nil, fun p _ => spared_nil rs _ _⟩
  | took _ i m hfits hm hharmless _ ih =>
    obtain ⟨rs, hgoing, hunharmed⟩ := ih
    obtain ⟨rs', hgoes⟩ :=
      hgoing.takeUnder (logConfig_valid hvalid) hpolicy hfits hm.fsync hharmless.1
    exact ⟨rs', hgoes.going.answered, hgoes.unharmed hgoing hunharmed hm
      (hharmless.2 rs (hgoing.serves hvalid))⟩
  | checkpointed _ epochs epochFile ih =>
    obtain ⟨rs, hgoing, hunharmed⟩ := ih
    exact ⟨rs, hgoing.congr rfl rfl, hunharmed.inside, hunharmed.waiting⟩

/-- A thread that flushes answers a durable append when its records are on the medium, as long as
failed fsyncs lose no byte of records that are waited for and truncations do no harm. -/
theorem durable_on_medium (hconfig : config.validate = .ok ()) (hpolicy : config.fsync ≠ .os)
    {t : Thread} {gone : Gone}
    (h : t.Endured crc config (fun t i m => m.Harmless crc config t i) gone) {i : Input}
    {m : Mishap} (hfits : i.Fits t) (hm : m.OfFsync crc config.fsync t i)
    (hharmless : m.Harmless crc config t i) :
    Answers crc config (OnMedium crc) (t.endure crc config.fsync m gone i) := by
  have hvalid := config.validate_eq_ok_iff.mp hconfig
  have hc := logConfig_valid hvalid
  obtain ⟨rs, hgoing, hunharmed⟩ := h.unharmed hvalid hpolicy
  obtain ⟨rs', hgoes⟩ := hgoing.takeUnder hc hpolicy hfits hm.fsync hharmless.1
  have hserves : Serves crc config (t.endure crc config.fsync m gone i).2.1 rs' :=
    hgoes.going.serves hvalid
  obtain ⟨k, opened, hinv, hb⟩ := id hgoes.going
  have hrep := hinv.log.represents
  refine ⟨rs', hrep.length_le, hserves, fun reply hreply => (hinv.out reply hreply).promises ?_⟩
  rintro produce base count rfl o hge hlt hle
  have hspared := hgoes.spared hgoing hunharmed hm (hharmless.2 rs (hgoing.serves hvalid))
    (hgoes.answers produce base count hreply) (hle.trans hinv.log.kept_le)
  exact ⟨hrep.inSynced hinv.log.kept hb hinv.log.kept_le (by omega), hspared o hge hlt⟩

section Behind

theorem Mishap.sparesWaiting_of_pending_nil {t : Thread} (h : t.pending = []) (m : Mishap) :
    m.SparesWaiting crc config t := by
  intro rs _ p hp
  rw [h] at hp
  cases hp

/-- The inputs up to a flush that fails while no append waits. -/
def untilLost : List (Input × Mishap) :=
  [(appendInput [8] .written, .none), (.timeout ⟨0, 10⟩, failedFlush)]

private theorem untilLost_endured : (Thread.endureAll untilLost).1.Endured (fun _ => 0) batchConfig
    (fun t i m => m.Harmless (fun _ => 0) batchConfig t i) [(0, 0)] := by
  have hwritten := (startedThread_endured fun t i m =>
    m.Harmless (fun _ => 0) batchConfig t i).undisturbed (appendInput [8] .written) (by decide)
      ⟨trivial, Mishap.sparesWaiting_of_pending_nil rfl _⟩ trivial
  refine hwritten.took (.timeout ⟨0, 10⟩) failedFlush (by decide) ⟨fun op hop => ?_, fun p hp => ?_⟩
    ⟨trivial, Mishap.sparesWaiting_of_pending_nil rfl _⟩ trivial
  · cases hop
    trivial
  · obtain rfl := List.mem_singleton.mp hp
    exact ⟨rfl, by decide⟩

/-- A durable append behind the byte that is lost. -/
theorem durable_on_medium_behind :
    ((Thread.endureAll untilLost).1.endure (fun _ => 0) batchConfig.fsync .none [(0, 0)]
      (appendInput [7] .durable)).1 = [.append ⟨[(none, [7])], .durable⟩ (.ok (1, 1))] ∧
    Answers (fun _ => 0) batchConfig (OnMedium fun _ => 0) ((Thread.endureAll untilLost).1.endure
      (fun _ => 0) batchConfig.fsync .none [(0, 0)] (appendInput [7] .durable)) :=
  ⟨rfl, durable_on_medium rfl (by decide) untilLost_endured (by decide)
    (Mishap.none_ofFsync _ _ _ _) ⟨trivial, Mishap.sparesWaiting_of_pending_nil rfl _⟩⟩

private theorem Answers.one_durable {r : List Reply × Thread × Gone}
    {P : Dir → Gone → List Record → ℕ → Prop} (h : Answers crc config P r) {value : List UInt8}
    (hreply : .append ⟨[(none, value)], .durable⟩ (.ok (0, 1)) ∈ r.1)
    (hone : r.2.1.log.nextOffset = 1) {record : Record}
    (hread : (Log.read crc 0 0).run r.2.1.state = .ok [record] r.2.1.state) :
    P r.2.1.fs.dir r.2.2 [record] 0 := by
  obtain ⟨rs, hlen, hserves, hout⟩ := h
  obtain rfl := hserves.refines.eq_singleton hlen hone hread
  exact (hout _ hreply (.inl rfl)).2 0 le_rfl (by decide)

/-- The flush behind a failed one answers the append that waits, although a byte of its record is
lost. -/
theorem durable_answered_lost : ∃ t gone, Thread.Endured (fun _ => 0) batchConfig
    (fun t i m => m.Spares t i) t gone ∧ ∃ i, i.Fits t ∧
      (t.endure (fun _ => 0) batchConfig.fsync .none gone i).1 =
        [.append ⟨[(none, [7])], .durable⟩ (.ok (0, 1))] ∧
      ¬ Answers (fun _ => 0) batchConfig (OnMedium fun _ => 0)
        (t.endure (fun _ => 0) batchConfig.fsync .none gone i) := by
  refine ⟨_, _, untilFailed_endured, .timeout ⟨0, 20⟩, by decide, rfl, fun h => ?_⟩
  obtain ⟨-, hlost⟩ := h.one_durable List.mem_cons_self rfl rfl
  exact hlost (0, 0) (by decide) ⟨le_rfl, by decide, by decide⟩

end Behind

end Replog.Partition

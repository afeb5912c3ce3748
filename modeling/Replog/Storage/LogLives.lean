import Replog.Storage.Durability

/-!
# The lives of a log

A directory outlives the processes that work on it. Each of them opens the log, performs operations
and dies at any point of an operation or of the opening; what is lost then is up to the kind of
crash. Whenever the log is open it stands for some list of records.
-/

namespace Replog.Storage

variable {crc : List UInt8 → UInt32} {config : LogConfig}

/-- An open log, or a directory that nobody has open. -/
inductive LogPhase where
  | up (s : Log × Fs)
  | down (d : Dir)

/-- The logs that come about, where a crash takes what `loss` says. -/
inductive Lived (crc : List UInt8 → UInt32) (config : LogConfig) (loss : Dir → Dir → Prop) :
    LogPhase → Prop
  | new : Lived crc config loss (.down .empty)
  | opened {d : Dir} {clock : Clock} {log : Log} {fs : Fs} (h : Lived crc config loss (.down d))
      (hrun : (Log.openDir crc config clock).run ⟨d, [], []⟩ = .ok log fs) :
      Lived crc config loss (.up (log, fs))
  | stepped {s : Log × Fs} (h : Lived crc config loss (.up s)) (hroom : s.1.nextOffset < 2 ^ 64)
      (op : LogOp) : Lived crc config loss (.up (op.step crc s).2)
  | crashed {s : Log × Fs} (h : Lived crc config loss (.up s)) (hroom : s.1.nextOffset < 2 ^ 64)
      (op : LogOp) {d d' : Dir} (hcrash : CrashDuring (op.exec crc) s d) (hloss : loss d d') :
      Lived crc config loss (.down d')
  | crashedOpening {d d' d'' : Dir} {clock : Clock} {log : Log} {fs : Fs}
      (h : Lived crc config loss (.down d))
      (hrun : (Log.openDir crc config clock).run ⟨d, [], []⟩ = .ok log fs)
      (hcrash : CrashPoint d fs.trace d') (hloss : loss d' d'') :
      Lived crc config loss (.down d'')

/-- Only the process dies, or the power fails and cached bytes are lost. -/
def Loses (d d' : Dir) : Prop := d' = d ∨ ∃ newest n, Damaged d d' newest n

/-- A directory that opens, or one with a gap. -/
inductive Remains (crc : List UInt8 → UInt32) (config : LogConfig) : Dir → Prop
  | none : Remains crc config .empty
  | opens {rs : List Record} {d : Dir} (h : Left crc config rs d) : Remains crc config d
  | gap {cs : List (List Record)} {d : Dir} (h : Gap crc config d cs) : Remains crc config d

theorem Cutting.remains {rs : List Record} {n : ℕ} {d d' : Dir}
    (h : Cutting crc config rs n d d') : Remains crc config d' := by
  cases h with
  | opens hleft => exact .opens hleft
  | gap h => exact .gap h

/-- Only the last file is damaged, and it is behind the gap. -/
theorem Gap.damaged {d d' : Dir} {cs : List (List Record)} {newest n : ℕ}
    (h : Gap crc config d cs) (hd : Damaged d d' newest n) : Gap crc config d' cs := by
  obtain ⟨b, hgt, hb⟩ := h.behind
  have hle := hd.newest_max b hb
  have hfiles : ∀ b, (d'.log b).isSome ↔ (d.log b).isSome := by
    intro b'
    by_cases heq : b' = newest
    · obtain ⟨f, synced, hf, -, -, hf'⟩ := hd.newest_log
      rw [heq, hf, hf']
      exact Iff.rfl
    · rw [hd.closed_log b' heq]
  refine ⟨h.closed.imp fun b' hb' c hc => ?_, h.ne_nil, fun b' hb' => ?_, b, hgt, (hfiles b).mpr hb⟩
  · have hlt := h.closed.lt_end hb'
    obtain ⟨k, hindex⟩ := hd.indexes b'
    exact ⟨hd.closed_log b' (by omega) ▸ hc.log_file, hindex ▸ hc.index_file.cut k, hc.numbered,
      hc.size_le⟩
  · exact h.files b' ((hfiles b').mp hb')

theorem Remains.loses (hc : config.Valid) {d d' : Dir} (h : Remains crc config d)
    (hloss : Loses d d') : Remains crc config d' := by
  rcases hloss with rfl | ⟨newest, n, hdamage⟩
  · exact h
  cases h with
  | none =>
    obtain ⟨f, synced, hf, -⟩ := hdamage.newest_log
    cases hf
  | opens hleft =>
    obtain ⟨rs', hleft'⟩ := hleft.damaged hc hdamage
    exact .opens hleft'
  | gap h => exact .gap (h.damaged hdamage)

theorem Represents.remains (hc : config.Valid) {s : Log × Fs} {rs : List Record}
    (h : Represents crc config s rs) (hroom : rs.length < 2 ^ 64) {op : LogOp} {d : Dir}
    (hcrash : CrashDuring (op.exec crc) s d) : Remains crc config d := by
  have hwrites : op.Writes → Remains crc config d := by
    intro hop
    obtain ⟨cs, live, n, -, hsurviving⟩ := hop.reaches hc h hroom hcrash
    obtain ⟨tail, hd⟩ := hsurviving.crashDir hc
    exact .opens ⟨cs, _, tail, rfl, hd⟩
  obtain ⟨cs, act, hok, rfl⟩ := h
  cases op with
  | append => exact hwrites trivial
  | appendReplicated => exact hwrites trivial
  | flush => exact hwrites trivial
  | truncateSuffix n =>
    by_cases hin : n < (cs.flatten ++ act).length
    · obtain ⟨log, ops, cs', act', hrun, -, -, hpasses⟩ := truncateSuffix_spec hc hok hin
      refine (hcrash.of_passes ?_ hpasses).remains
      simp only [LogOp.exec, EStateM.run_bind, hrun, EStateM.run_pure, resultState]
    · have hrun := truncateSuffix_past hok (n := n) (by omega)
      refine @CrashDuring.of_passes _ _ _ _ _ [] hcrash ?_
        (.nil (.opens ⟨cs, act, [], rfl, hok.crashDir⟩))
      rw [Fs.advance_nil hok.healthy]
      simp only [LogOp.exec, EStateM.run_bind, hrun, EStateM.run_pure, resultState]
  | reopen clock =>
    obtain ⟨synced, hnewest⟩ := hok.crashDir.newest
    obtain ⟨log, ops, hrun, -, -, hpasses⟩ :=
      openDir_passes hc hok.healthy hok.crashDir hnewest clock
    rw [← hok.config_eq] at hrun
    refine .opens (hcrash.of_passes ?_ (hpasses.imp fun d hd => hd.left hok.crashDir hnewest))
    simp only [LogOp.exec, EStateM.run_bind, MethodM.run_self, MethodM.run_onFs hrun,
      MethodM.run_modifySelf, EStateM.run_pure, resultState]

/-- Opening what is left: the log stands for what was found, and a crash on the way leaves as
much. -/
theorem Remains.open (hc : config.Valid) {d : Dir} (h : Remains crc config d) {clock : Clock}
    {log : Log} {fs : Fs} (hrun : (Log.openDir crc config clock).run ⟨d, [], []⟩ = .ok log fs) :
    (∃ rs, Represents crc config (log, fs) rs) ∧
      ∀ d', CrashPoint d fs.trace d' → Remains crc config d' := by
  cases h with
  | none =>
    obtain ⟨log', hrun', hok, -⟩ := openDir_empty_run crc hc clock
    rw [hrun] at hrun'
    cases hrun'
    refine ⟨⟨[], [], [], hok, rfl⟩, fun d' hd' => ?_⟩
    have hmade : ∀ {d : Dir}, (∀ b, d.log b = if b = 0 then some ⟨[], 0⟩ else Option.none) →
        Remains crc config d := fun h => .opens (@left_nil crc config LogFile.length _ h).1
    cases hd' with
    | before => exact .none
    | during => exact .none
    | after hd' =>
      cases hd' with
      | before => exact hmade fun b => by simp
      | during => exact hmade fun b => by simp [FsOp.applyFailed]
      | after hd' =>
        cases hd'
        exact hmade fun b => by simp
  | opens hleft =>
    obtain ⟨log', ops, hrun', hrep, -, hpasses⟩ :=
      hleft.open LogFile.enduring_length hc hleft.kept_zero clock
    rw [hrun] at hrun'
    cases hrun'
    exact ⟨⟨_, hrep⟩, fun d' hd' => .opens (hpasses d' hd').1⟩
  | gap h =>
    obtain ⟨e, fs', hfail⟩ := h.openDir hc clock
    rw [hrun] at hfail
    cases hfail

/-- What is known of a log at any time. -/
def LogPhase.Ok (crc : List UInt8 → UInt32) (config : LogConfig) : LogPhase → Prop
  | .up s => ∃ rs, Represents crc config s rs
  | .down d => Remains crc config d

theorem Lived.ok (hc : config.Valid) {phase : LogPhase} (h : Lived crc config Loses phase) :
    phase.Ok crc config := by
  induction h with
  | new => exact .none
  | opened _ hrun ih => exact (Remains.open hc ih hrun).1
  | stepped _ hroom op ih =>
    obtain ⟨rs, hrep⟩ := ih
    rw [hrep.nextOffset_eq] at hroom
    exact ⟨_, ((step_refines hc) 0 op _ _ ⟨hrep, by omega⟩).2.1⟩
  | crashed _ hroom op hcrash hloss ih =>
    obtain ⟨rs, hrep⟩ := ih
    rw [hrep.nextOffset_eq] at hroom
    exact (hrep.remains hc hroom hcrash).loses hc hloss
  | crashedOpening _ hrun hcrash hloss ih =>
    exact ((Remains.open hc ih hrun).2 _ hcrash).loses hc hloss

end Replog.Storage

import Mathlib.Data.List.Forall2
import Replog.Storage.IndexTrust
import Replog.Storage.Serving

/-!
# Logs that differ in the indexes of their rolled segments

An append never looks at a rolled segment, a read and a truncation look at one. As long as the
indexes lead to the same records, two logs over the same segment files answer every call alike.
-/

namespace Replog.Storage
open Replog.Library

variable {crc : List UInt8 → UInt32} {config : LogConfig} {α : Type}

/-- Two logs with the same counters and active segment, whose rolled segments are related one by
one. -/
structure Apart (config : LogConfig) (P : Segment → Segment → Prop) (R : Fs → Fs → Prop)
    (s t : Log × Fs) : Prop where
  config_eq : s.1.config = config
  rest : t.1 = { s.1 with closed := t.1.closed }
  closed : List.Forall₂ P s.1.closed t.1.closed
  fs : R s.2 t.2

/-- A segment and another one with the same base, or itself. -/
structure Paired (P : Segment → Segment → Prop) : Prop where
  refl : ∀ seg, P seg seg
  base_eq : ∀ {seg seg'}, P seg seg' → seg'.baseOffset = seg.baseOffset

section Calls

variable {P : Segment → Segment → Prop} {R : Fs → Fs → Prop}

theorem onFs_apart {x y : FsM α} (h : Follows R x y) :
    Follows (Apart config P R) (MethodM.onFs x : LogM α) (MethodM.onFs y) := by
  rintro ⟨log, fs⟩ ⟨log', fs'⟩ hapart a s' hrun
  simp only [MethodM.onFs, EStateM.run] at hrun ⊢
  cases hfirst : x fs with
  | error e fs₁ =>
    rw [hfirst] at hrun
    cases hrun
  | ok a' fs₁ =>
    rw [hfirst] at hrun
    cases hrun
    obtain ⟨fs₁', hrun', hR⟩ := h fs fs' hapart.fs a fs₁ hfirst
    have hrun'' : y fs' = .ok a fs₁' := hrun'
    exact ⟨(log', fs₁'), by rw [hrun''], hapart.config_eq, hapart.rest, hapart.closed, hR⟩

/-- A program that looks at the log goes on alike whatever the rolled segments are. -/
theorem self_bind_apart {f g : Log → LogM α}
    (h : ∀ log closed, log.config = config → List.Forall₂ P log.closed closed →
      Follows (Apart config P R) (f log) (g { log with closed })) :
    Follows (Apart config P R) (MethodM.self >>= f) (MethodM.self >>= g) := by
  rintro ⟨log, fs⟩ ⟨log', fs'⟩ hapart a s' hrun
  rw [run_bind_ok (MethodM.run_self _)] at hrun ⊢
  have hrest : log' = { log with closed := log'.closed } := hapart.rest
  have hfollows := h log log'.closed hapart.config_eq hapart.closed
  rw [← hrest] at hfollows
  exact hfollows _ _ hapart a s' hrun

theorem modifySelf_apart {f g : Log → Log}
    (h : ∀ log closed, log.config = config → List.Forall₂ P log.closed closed →
      (f log).config = config ∧
      g { log with closed } = { f log with closed := (g { log with closed }).closed } ∧
      List.Forall₂ P (f log).closed (g { log with closed }).closed) :
    Follows (Apart config P R) (MethodM.modifySelf f) (MethodM.modifySelf g) := by
  rintro ⟨log, fs⟩ ⟨log', fs'⟩ hapart a s' hrun
  cases hrun
  have hrest : log' = { log with closed := log'.closed } := hapart.rest
  obtain ⟨hconfig, hlog, hclosed⟩ := h log log'.closed hapart.config_eq hapart.closed
  rw [← hrest] at hlog hclosed
  exact ⟨(g log', fs'), rfl, hconfig, hlog, hclosed, hapart.fs⟩

private theorem active_apart {x : MethodM Segment α} (h : Follows (Beside R) x x) :
    Follows (Apart config P R)
      (MethodM.onField Log.active (fun seg log => { log with active := seg }) x)
      (MethodM.onField Log.active (fun seg log => { log with active := seg }) x) := by
  rintro ⟨log, fs⟩ ⟨log', fs'⟩ hapart a s' hrun
  have hrest : log' = { log with closed := log'.closed } := hapart.rest
  have hactive : log'.active = log.active := by rw [hrest]
  simp only [MethodM.onField, EStateM.run] at hrun ⊢
  cases hfirst : x (log.active, fs) with
  | error e s₁ =>
    rw [hfirst] at hrun
    cases hrun
  | ok a' s₁ =>
    rw [hfirst] at hrun
    cases hrun
    obtain ⟨⟨seg, fs₁'⟩, hrun', hsame, hR⟩ := h (log.active, fs) (log.active, fs') ⟨rfl, hapart.fs⟩
      a s₁ hfirst
    have hrun'' : x (log.active, fs') = .ok a (seg, fs₁') := hrun'
    rw [hactive, hrun'']
    refine ⟨_, rfl, hapart.config_eq, ?_, hapart.closed, hR⟩
    dsimp only at hsame ⊢
    rw [hsame, hrest]

theorem flush_apart (hR : Carried R) (clock : Clock) :
    Follows (Apart config P R) (Log.flush clock) (Log.flush clock) :=
  self_bind_apart fun _ _ _ _ =>
    .bind (onFs_apart (hR.perform (.fsyncLog _) trivial)) fun _ =>
      .bind (modifySelf_apart fun _ _ hconfig hclosed => ⟨hconfig, rfl, hclosed⟩) fun _ =>
        self_bind_apart fun _ _ _ _ => .pure _

private theorem insertClosed_paired (hP : Paired P) (seg : Segment) {closed closed' : List Segment}
    (h : List.Forall₂ P closed closed') :
    List.Forall₂ P (Log.insertClosed seg closed) (Log.insertClosed seg closed') := by
  induction h with
  | nil => exact .cons (hP.refl seg) .nil
  | cons hfirst hrest ih =>
    rw [Log.insertClosed, Log.insertClosed, hP.base_eq hfirst]
    split_ifs
    · exact .cons (hP.refl seg) (.cons hfirst hrest)
    · exact .cons (hP.refl seg) hrest
    · exact .cons hfirst ih

private theorem roll_apart (hP : Paired P) (hR : Carried R) (clock : Clock) :
    Follows (Apart config P R) (Log.roll clock) (Log.roll clock) :=
  .bind (flush_apart hR clock) fun _ => self_bind_apart fun _ _ _ _ =>
    .bind (onFs_apart (create_follows hR _)) fun _ =>
      modifySelf_apart fun log _ hconfig hclosed =>
        ⟨hconfig, rfl, insertClosed_paired hP log.active hclosed⟩

private theorem writeRecord_apart (hR : Carried R) (clock : Clock) (r : Record) :
    Follows (Apart config P R) (Log.writeRecord crc clock r) (Log.writeRecord crc clock r) := by
  have hinfo : Follows (Apart config P R)
      (do return { offset := r.offset, durableOffset := (← MethodM.self).durableOffset } :
        LogM AppendInfo)
      (do return { offset := r.offset, durableOffset := (← MethodM.self).durableOffset }) :=
    self_bind_apart fun _ _ _ _ => .pure _
  refine self_bind_apart fun log _ _ _ =>
    .bind (active_apart (segment_append_follows crc _ hR r)) fun _ =>
      .bind (modifySelf_apart fun _ _ hconfig hclosed => ⟨hconfig, rfl, hclosed⟩) fun _ =>
        self_bind_apart fun log' _ _ _ => ?_
  exact .ite (.bind (flush_apart hR clock) fun _ => hinfo) hinfo

theorem appendRecord_apart (hP : Paired P) (hR : Carried R) (clock : Clock) (r : Record) :
    Follows (Apart config P R) (Log.appendRecord crc clock r) (Log.appendRecord crc clock r) := by
  refine self_bind_apart fun log _ _ _ => ?_
  have hwrite := @writeRecord_apart crc config P R hR clock r
  have hrest : Follows (Apart config P R)
      (if log.rollDue r.encodedLen then do Log.roll clock; Log.writeRecord crc clock r
        else Log.writeRecord crc clock r)
      (if log.rollDue r.encodedLen then do Log.roll clock; Log.writeRecord crc clock r
        else Log.writeRecord crc clock r) :=
    .ite (.bind (roll_apart hP hR clock) fun _ => hwrite) hwrite
  exact .ite (.bind (onFs_apart (fail_follows _ _)) fun _ => hrest) hrest

theorem Apart.nextOffset_eq {s t : Log × Fs} (h : Apart config P R s t) :
    t.1.nextOffset = s.1.nextOffset := by
  rw [h.rest]
  rfl

/-! ## Finding and removing rolled segments -/

section Bases

variable {closed closed' : List Segment}
  (hbase : ∀ {seg seg'}, P seg seg' → seg'.baseOffset = seg.baseOffset)

include hbase

theorem bases_paired (h : List.Forall₂ P closed closed') :
    closed'.map Segment.baseOffset = closed.map Segment.baseOffset := by
  induction h with
  | nil => rfl
  | cons hfirst _ ih => rw [List.map_cons, List.map_cons, hbase hfirst, ih]

theorem removeClosed_paired (h : List.Forall₂ P closed closed') (base : ℕ) :
    List.Forall₂ P (Log.removeClosed base closed) (Log.removeClosed base closed') := by
  rw [Log.removeClosed, Log.removeClosed]
  induction h with
  | nil => exact .nil
  | cons hfirst _ ih =>
    rw [List.filter_cons, List.filter_cons, hbase hfirst]
    split_ifs
    · exact .cons hfirst ih
    · exact ih

/-- Both lists have a segment with a base like that, and these are related, or neither has. -/
theorem find?_paired (h : List.Forall₂ P closed closed') (p : ℕ → Prop) [DecidablePred p] :
    (closed.find? fun seg => p seg.baseOffset) = none ∧
        (closed'.find? fun seg => p seg.baseOffset) = none ∨
      ∃ seg seg', P seg seg' ∧ (closed.find? fun seg => p seg.baseOffset) = some seg ∧
        (closed'.find? fun seg => p seg.baseOffset) = some seg' := by
  induction h with
  | nil => exact .inl ⟨rfl, rfl⟩
  | @cons seg seg' _ _ hfirst _ ih =>
    by_cases hp : p seg.baseOffset
    · have hp' : p seg'.baseOffset := hbase hfirst ▸ hp
      exact .inr ⟨seg, seg', hfirst, by simp [hp], by simp [hp']⟩
    · have hp' : ¬ p seg'.baseOffset := hbase hfirst ▸ hp
      simpa [hp, hp'] using ih

theorem lastClosed_paired (h : List.Forall₂ P closed closed') (p : ℕ → Prop) [DecidablePred p] :
    Log.lastClosed p closed = none ∧ Log.lastClosed p closed' = none ∨
      ∃ seg seg', P seg seg' ∧ Log.lastClosed p closed = some seg ∧
        Log.lastClosed p closed' = some seg' :=
  find?_paired hbase (List.forall₂_reverse_iff.mpr h) p

theorem removeDoomed_apart {bs : List ℕ}
    (hlogs : ∀ b ∈ bs, Follows R (FsM.removeLog b) (FsM.removeLog b))
    (hindexes : ∀ b ∈ bs, Follows R (FsM.removeIndex b) (FsM.removeIndex b)) :
    Follows (Apart config P R) (Log.removeDoomed bs) (Log.removeDoomed bs) := by
  induction bs with
  | nil => exact .pure _
  | cons b bs ih =>
    obtain ⟨hlog, hlogs⟩ := List.forall_mem_cons.mp hlogs
    obtain ⟨hindex, hindexes⟩ := List.forall_mem_cons.mp hindexes
    exact .bind (modifySelf_apart fun _ _ hconfig hclosed =>
        ⟨hconfig, rfl, removeClosed_paired hbase hclosed b⟩) fun _ =>
      .bind (onFs_apart hlog) fun _ => .bind (onFs_apart hindex) fun _ => ih hlogs hindexes

variable {s t : Log × Fs}

theorem Apart.startOffset_eq (h : Apart config P R s t) : t.1.startOffset = s.1.startOffset := by
  have hclosed := h.closed
  have hactive : t.1.active = s.1.active := by rw [h.rest]
  rw [Log.startOffset, Log.startOffset, hactive]
  cases hs : s.1.closed with
  | nil =>
    rw [hs, List.forall₂_nil_left_iff] at hclosed
    rw [hclosed]
  | cons seg rest =>
    rw [hs, List.forall₂_cons_left_iff] at hclosed
    obtain ⟨seg', rest', hfirst, -, ht⟩ := hclosed
    rw [ht]
    exact hbase hfirst

theorem Apart.truncateTarget_eq (h : Apart config P R s t) (n : ℕ) :
    t.1.truncateTarget n = s.1.truncateTarget n := by
  have hactive : t.1.active = s.1.active := by rw [h.rest]
  rw [Log.truncateTarget, Log.truncateTarget, h.startOffset_eq hbase, hactive]
  rcases lastClosed_paired hbase h.closed (· < n) with ⟨hs, ht⟩ | ⟨seg, seg', hP, hs, ht⟩
  · rw [hs, ht]
  · rw [hs, ht, Option.map_some, Option.map_some, hbase hP]

theorem rebuildAt_apart (hR : Carried R) (target : Segment) (newNext : ℕ) :
    Follows (Apart config P R) (Log.rebuildAt crc target newNext)
      (Log.rebuildAt crc target newNext) :=
  self_bind_apart fun _ _ _ _ =>
    .bind (onFs_apart (positionOf_follows crc _ hR.sameLogs _ _)) fun _ =>
      .bind (onFs_apart (readLog_follows hR.sameLogs _)) fun _ =>
        .bind (onFs_apart (hR.perform (.setLen _ _) trivial)) fun _ =>
          .bind (onFs_apart (hR.perform (.fsyncLog _) trivial)) fun _ =>
            .bind (onFs_apart (recover_newest_follows crc _ hR _)) fun _ =>
              modifySelf_apart fun _ _ hconfig hclosed =>
                ⟨hconfig, rfl, removeClosed_paired hbase hclosed _⟩

/-- So are two segments with the same base that find the new end at the same position. -/
theorem rebuildAt_paired (hR : Carried R) (h : Apart config P R s t) {target target' : Segment}
    (htarget : target'.baseOffset = target.baseOffset) {newNext p : ℕ}
    (hposition : (target.positionOf crc config newNext).run s.2 = .ok p s.2)
    (hposition' : (target'.positionOf crc config newNext).run t.2 = .ok p t.2) {s' : Log × Fs}
    (hrun : (Log.rebuildAt crc target newNext).run s = .ok () s') :
    ∃ t', (Log.rebuildAt crc target' newNext).run t = .ok () t' ∧ Apart config P R s' t' := by
  have hconfig : t.1.config = config := by
    rw [h.rest]
    exact h.config_eq
  rw [Log.rebuildAt, run_bind_ok (MethodM.run_self s), h.config_eq,
    run_bind_ok (MethodM.run_onFs hposition)] at hrun
  rw [Log.rebuildAt, run_bind_ok (MethodM.run_self t), hconfig,
    run_bind_ok (MethodM.run_onFs hposition'), htarget]
  let rest : LogM Unit := do
    let _ ← MethodM.onFs (FsM.readLog target.baseOffset)
    MethodM.onFs (FsM.perform (.setLen target.baseOffset p))
    MethodM.onFs (FsM.perform (.fsyncLog target.baseOffset))
    let rebuilt ← MethodM.onFs (Segment.recover crc config target.baseOffset true)
    MethodM.modifySelf fun log => { log with
      closed := Log.removeClosed target.baseOffset log.closed
      active := rebuilt
      durableOffset := Log.durableBelow newNext log.durableOffset }
  have hrest : Follows (Apart config P R) rest rest :=
    .bind (onFs_apart (readLog_follows hR.sameLogs _)) fun _ =>
      .bind (onFs_apart (hR.perform (.setLen _ _) trivial)) fun _ =>
        .bind (onFs_apart (hR.perform (.fsyncLog _) trivial)) fun _ =>
          .bind (onFs_apart (recover_newest_follows crc _ hR _)) fun _ =>
            modifySelf_apart fun _ _ hconfig hclosed =>
              ⟨hconfig, rfl, removeClosed_paired hbase hclosed _⟩
  exact hrest s t h () s' hrun

end Bases

end Calls

end Replog.Storage

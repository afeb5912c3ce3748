import Replog.Storage.Log

/-!
# Runs that no failure hits

A call that ends well on a healthy directory ends just the same with failures to come, as long as
none of them hits an operation it performs. The failures behind its last operation are left for the
calls after it.
-/

namespace Replog.Storage

def Fs.under (fs : Fs) (faults : List (Option ℕ)) : Fs := { fs with faults }

theorem Fs.Healthy.under_nil {fs : Fs} (h : fs.Healthy) : fs.under [] = fs := by
  rw [Healthy] at h
  rw [under, ← h]

theorem Fs.advance_inj {fs : Fs} {ops ops' : List FsOp} (h : fs.advance ops = fs.advance ops') :
    ops = ops' :=
  List.append_cancel_left (congrArg Fs.trace h)

/-- The first of the operations that fails. -/
def hit : List FsOp → List (Option ℕ) → Option FsOp
  | op :: _, some _ :: _ => some op
  | _ :: ops, none :: faults => hit ops faults
  | _, _ => none

@[simp] theorem hit_nil (faults : List (Option ℕ)) : hit [] faults = none := by
  cases faults <;> rfl

@[simp] theorem hit_healthy (ops : List FsOp) : hit ops [] = none := by
  cases ops <;> rfl

theorem hit_append (ops more : List FsOp) (faults : List (Option ℕ)) :
    hit (ops ++ more) faults = (hit ops faults).or (hit more (faults.drop ops.length)) := by
  induction ops generalizing faults with
  | nil => simp
  | cons op ops ih =>
    cases faults with
    | nil => simp
    | cons fault faults =>
      cases fault with
      | none => exact ih faults
      | some n => rfl

theorem mem_of_hit {ops : List FsOp} {faults : List (Option ℕ)} {op : FsOp}
    (h : hit ops faults = some op) : op ∈ ops := by
  induction ops generalizing faults with
  | nil => simp at h
  | cons first ops ih =>
    cases faults with
    | nil => cases h
    | cons fault faults =>
      cases fault with
      | none => exact List.mem_cons_of_mem _ (ih h)
      | some n =>
        cases h
        exact List.mem_cons_self

section Undisturbed

variable {σ α β γ : Type}

/-- A program on a state that has a directory in it, and how that one is told what is to come. -/
def UndisturbedOn (dir : σ → Fs) (under : σ → List (Option ℕ) → σ) (x : EStateM Failure σ α) :
    Prop :=
  ∀ s, (dir s).Healthy → ∀ a s', x.run s = .ok a s' → ∃ ops, dir s' = (dir s).advance ops ∧
    ∀ faults, hit ops faults = none →
      x.run (under s faults) = .ok a (under s' (faults.drop ops.length))

abbrev FsM.Undisturbed (x : FsM α) : Prop := UndisturbedOn id Fs.under x

abbrev MethodM.Undisturbed (x : MethodM γ α) : Prop :=
  UndisturbedOn Prod.snd (fun s faults => (s.1, s.2.under faults)) x

namespace UndisturbedOn

variable {dir : σ → Fs} {under : σ → List (Option ℕ) → σ}

theorem pure (a : α) : UndisturbedOn dir under (Pure.pure a : EStateM Failure σ α) := by
  intro s hs a' s' hrun
  cases hrun
  exact ⟨[], (Fs.advance_nil hs).symm, fun faults _ => rfl⟩

theorem throw (e : Failure) : UndisturbedOn dir under (throw e : EStateM Failure σ α) := by
  intro s _ a s' hrun
  cases hrun

theorem bind {x : EStateM Failure σ α} {f : α → EStateM Failure σ β}
    (hx : UndisturbedOn dir under x) (hf : ∀ a, UndisturbedOn dir under (f a)) :
    UndisturbedOn dir under (x >>= f) := by
  intro s hs b s'' hrun
  rw [EStateM.run_bind] at hrun
  cases hfirst : x.run s with
  | error e s' =>
    rw [hfirst] at hrun
    cases hrun
  | ok a s' =>
    rw [hfirst] at hrun
    obtain ⟨ops, hdir, hsame⟩ := hx s hs a s' hfirst
    obtain ⟨more, hdir', hsame'⟩ := hf a s' (hdir ▸ Fs.advance_healthy _ _) b s'' hrun
    refine ⟨ops ++ more, by rw [hdir', hdir, Fs.advance_advance], fun faults hclear => ?_⟩
    rw [hit_append, Option.or_eq_none_iff] at hclear
    rw [EStateM.run_bind, hsame faults hclear.1, List.length_append, ← List.drop_drop]
    exact hsame' _ hclear.2

theorem ite {p : Prop} [Decidable p] {x y : EStateM Failure σ α}
    (hx : UndisturbedOn dir under x) (hy : UndisturbedOn dir under y) :
    UndisturbedOn dir under (if p then x else y) := by
  by_cases hp : p
  · simpa only [if_pos hp] using hx
  · simpa only [if_neg hp] using hy

end UndisturbedOn

theorem perform_undisturbed (op : FsOp) : (FsM.perform op).Undisturbed := by
  intro fs hfs u fs' hrun
  have hperform := FsM.run_perform (show fs.Healthy from hfs) op
  rw [hperform] at hrun
  cases hrun
  refine ⟨[op], rfl, fun faults hclear => ?_⟩
  cases faults with
  | nil => rfl
  | cons fault faults =>
    cases fault with
    | none => rfl
    | some n => cases hclear

private theorem createNewLog_undisturbed (base : ℕ) : (FsM.createNewLog base).Undisturbed := by
  intro fs hfs u fs' hrun
  have hnew : ∀ fs : Fs, (FsM.createNewLog base).run fs =
      if (fs.dir.log base).isSome then .error (.err .io) fs
      else (FsM.perform (.createLog base)).run fs := fun _ => rfl
  rw [hnew] at hrun
  split_ifs at hrun with hfile
  obtain ⟨ops, hdir, hsame⟩ := perform_undisturbed (.createLog base) fs hfs u fs' hrun
  refine ⟨ops, hdir, fun faults hclear => ?_⟩
  rw [hnew]
  exact (if_neg hfile).trans (hsame faults hclear)

theorem onFs_undisturbed {x : FsM β} (hx : x.Undisturbed) :
    (MethodM.onFs x : MethodM γ β).Undisturbed := by
  rintro ⟨c, fs⟩ hfs b s' hrun
  cases hfirst : x.run fs with
  | error e fs' =>
    have hfirst' : x fs = .error e fs' := hfirst
    simp [MethodM.onFs, EStateM.run, hfirst'] at hrun
  | ok b' fs' =>
    rw [MethodM.run_onFs hfirst] at hrun
    cases hrun
    obtain ⟨ops, hdir, hsame⟩ := hx fs hfs b fs' hfirst
    exact ⟨ops, hdir, fun faults hclear => MethodM.run_onFs (hsame faults hclear)⟩

theorem self_undisturbed : (MethodM.self : MethodM γ γ).Undisturbed := by
  intro s hs c s' hrun
  cases hrun
  exact ⟨[], (Fs.advance_nil hs).symm, fun faults _ => rfl⟩

theorem modifySelf_undisturbed (f : γ → γ) : (MethodM.modifySelf f).Undisturbed := by
  intro s hs c s' hrun
  cases hrun
  exact ⟨[], (Fs.advance_nil hs).symm, fun faults _ => rfl⟩

private theorem onField_undisturbed {x : MethodM β α} (get : γ → β) (put : β → γ → γ)
    (hx : x.Undisturbed) : (MethodM.onField get put x).Undisturbed := by
  rintro ⟨c, fs⟩ hfs a s' hrun
  cases hfirst : x.run (get c, fs) with
  | error e s =>
    have hfirst' : x (get c, fs) = .error e s := hfirst
    simp [MethodM.onField, EStateM.run, hfirst'] at hrun
  | ok a' s =>
    obtain ⟨b, fs'⟩ := s
    rw [MethodM.run_onField hfirst] at hrun
    cases hrun
    obtain ⟨ops, hdir, hsame⟩ := hx (get c, fs) hfs a (b, fs') hfirst
    exact ⟨ops, hdir, fun faults hclear => MethodM.run_onField (hsame faults hclear)⟩

end Undisturbed

/-! ## Appends -/

section Appends

variable (crc : List UInt8 → UInt32) (config : LogConfig)

private theorem index_create_undisturbed (base : ℕ) : (SparseIndex.create base).Undisturbed :=
  .bind (perform_undisturbed _) fun _ => .pure _

private theorem index_append_undisturbed (idx : SparseIndex) (base rel pos : ℕ) :
    (idx.append base rel pos).Undisturbed :=
  .bind (perform_undisturbed _) fun _ => .pure _

private theorem create_undisturbed (base : ℕ) : (Segment.create base).Undisturbed :=
  .bind (createNewLog_undisturbed base) fun _ =>
    .bind (index_create_undisturbed base) fun _ => .pure _

theorem segment_append_undisturbed (r : Record) :
    (Segment.append crc config r).Undisturbed := by
  refine .bind self_undisturbed fun seg => ?_
  have hwrite : (MethodM.onFs (FsM.perform (.writeLog seg.baseOffset (r.encode crc))) :
      MethodM Segment Unit).Undisturbed := onFs_undisturbed (perform_undisturbed _)
  exact .ite (.bind (onFs_undisturbed (index_append_undisturbed _ _ _ _)) fun _ =>
      .bind (modifySelf_undisturbed _) fun _ => .bind hwrite fun _ =>
        .bind (modifySelf_undisturbed _) fun _ => .pure _)
    (.bind hwrite fun _ => .bind (modifySelf_undisturbed _) fun _ => .pure _)

theorem flush_undisturbed (clock : Clock) : (Log.flush clock).Undisturbed :=
  .bind self_undisturbed fun _ => .bind (onFs_undisturbed (perform_undisturbed _)) fun _ =>
    .bind (modifySelf_undisturbed _) fun _ => .bind self_undisturbed fun _ => .pure _

theorem roll_undisturbed (clock : Clock) : (Log.roll clock).Undisturbed :=
  .bind (flush_undisturbed clock) fun _ => .bind self_undisturbed fun _ =>
    .bind (onFs_undisturbed (create_undisturbed _)) fun _ => modifySelf_undisturbed _

private theorem writeRecord_undisturbed (clock : Clock) (r : Record) :
    (Log.writeRecord crc clock r).Undisturbed :=
  .bind self_undisturbed fun _ =>
    .bind (onField_undisturbed _ _ (segment_append_undisturbed crc _ r)) fun _ =>
      .bind (modifySelf_undisturbed _) fun _ => .bind self_undisturbed fun _ =>
        .ite (.bind (flush_undisturbed clock) fun _ => .bind self_undisturbed fun _ => .pure _)
          (.bind self_undisturbed fun _ => .pure _)

theorem appendRecord_undisturbed (clock : Clock) (r : Record) :
    (Log.appendRecord crc clock r).Undisturbed := by
  have hfails : ∀ e, (MethodM.onFs (FsM.fail e) : LogM PUnit).Undisturbed := fun e =>
    onFs_undisturbed (.throw _)
  have hwrite := writeRecord_undisturbed crc clock r
  exact .bind self_undisturbed fun log =>
    .ite (.bind (hfails _) fun _ => .ite (.bind (roll_undisturbed clock) fun _ => hwrite) hwrite)
      (.ite (.bind (roll_undisturbed clock) fun _ => hwrite) hwrite)

end Appends

end Replog.Storage

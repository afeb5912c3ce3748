import Replog.Controller.Runs

/-!
# Metadata versions

A version number stands for one content of the metadata as long as a restart never goes back
behind a version that was already given out.
-/

namespace Replog.Controller
open Replog.Library

namespace Run

/-- What a restart at this time would come back with. -/
def stored (r : Run) (now : ℕ) : State := loadSnapshot now r.shared.disk

/-- A restart finds a snapshot at least as new as every version given out, and a request that is
not for the controller, answered with the default metadata, comes before any version was. -/
def Traceable (r : Run) : Action → Prop
  | .restart now => ∀ v ∈ r.reported, v ≤ (r.stored now).version
  | .request .other _ _ => ∀ v ∈ r.reported, v = 0
  | _ => True

instance (r : Run) (a : Action) : Decidable (r.Traceable a) :=
  match a with
  | .restart now => inferInstanceAs (Decidable (∀ v ∈ r.reported, v ≤ (r.stored now).version))
  | .request .other _ _ => inferInstanceAs (Decidable (∀ v ∈ r.reported, v = 0))
  | .request (.registerBroker ..) _ _ => inferInstanceAs (Decidable True)
  | .request (.brokerHeartbeat _) _ _ => inferInstanceAs (Decidable True)
  | .request .controllerMetadata _ _ => inferInstanceAs (Decidable True)
  | .request (.createTopic ..) _ _ => inferInstanceAs (Decidable True)
  | .request (.alterIsr ..) _ _ => inferInstanceAs (Decidable True)
  | .sweepLiveness _ _ => inferInstanceAs (Decidable True)

/-- Versions only grow, and answers of one version are equal. -/
structure VersionsSound (r : Run) : Prop where
  ascending : r.reported.Pairwise (· ≥ ·)
  unique : ∀ a ∈ r.answers, ∀ b ∈ r.answers, a.version = b.version → a = b

/-- The answers of the version of a state are its metadata. -/
def Describes (r : Run) (s : State) : Prop :=
  ∀ a ∈ r.answers, a.version = s.version → a = s.clusterMeta

structure Versioned (r : Run) : Prop extends VersionsSound r where
  answered : ∀ a ∈ r.answers, a.version ∈ r.reported
  reported_le : ∀ v ∈ r.reported, v ≤ r.mem.version
  describes : r.Describes r.mem
  describes_stored : ∀ now, r.Describes (r.stored now)
  stored_le : ∀ now, (r.stored now).version ≤ r.mem.version
  stored_agrees : ∀ now, (r.stored now).version = r.mem.version → (r.stored now).Agrees r.mem
  zero : ∀ a ∈ r.answers, a.version = 0 → a = .default
  empty : r.mem.version = 0 → r.mem.Agrees .empty
  stored_empty : ∀ now, (r.stored now).version = 0 → (r.stored now).Agrees .empty

private theorem versioned_init (config : ControllerConfig) : (init config).Versioned where
  ascending := .nil
  unique := nofun
  answered := nofun
  reported_le := nofun
  describes := nofun
  describes_stored := nofun
  stored_le _ := le_rfl
  stored_agrees _ _ := .refl _
  zero := nofun
  empty _ := .refl _
  stored_empty _ _ := .refl _

variable {r r' : Run}

private theorem reported_step (hsorted : r.reported.Pairwise (· ≥ ·)) {version : ℕ}
    (hle : ∀ v ∈ r.reported, v ≤ version)
    (h : r'.reported = r.reported ∨ r'.reported = version :: r.reported) :
    r'.reported.Pairwise (· ≥ ·) ∧ (∀ v ∈ r'.reported, v ≤ version) ∧
      ∀ v ∈ r.reported, v ∈ r'.reported := by
  rcases h with h | h
  · rw [h]
    exact ⟨hsorted, hle, fun _ hv => hv⟩
  · rw [h]
    refine ⟨List.pairwise_cons.mpr ⟨hle, hsorted⟩, fun v hv => ?_,
      fun v hv => List.mem_cons_of_mem _ hv⟩
    rcases List.mem_cons.mp hv with rfl | hv
    · exact le_rfl
    · exact hle v hv

theorem clusterMeta_of_agrees_empty {s : State} (h : s.Agrees .empty) (hversion : s.version = 0) :
    s.clusterMeta = .default :=
  h.clusterMeta_eq hversion

private theorem versioned_quiet (h : r.Versioned) (hmem : r'.mem.Agrees r.mem)
    (hversion : r'.mem.version = r.mem.version) (hdisk : r'.shared.disk = r.shared.disk)
    (hreported : r'.reported = r.reported ∨ r'.reported = r.mem.version :: r.reported)
    (hanswers : r'.answers = r.answers) : r'.Versioned := by
  obtain ⟨hsorted, hle, hkept⟩ := reported_step h.ascending h.reported_le hreported
  have hstored : r'.stored = r.stored := funext fun now => by rw [stored, hdisk, stored]
  refine { ascending := hsorted, unique := ?_, answered := ?_, reported_le := ?_, describes := ?_,
           describes_stored := ?_, stored_le := ?_, stored_agrees := ?_, zero := ?_, empty := ?_,
           stored_empty := ?_ }
  · exact hanswers ▸ h.unique
  · intro a ha
    exact hkept _ (h.answered a (hanswers ▸ ha))
  · exact hversion ▸ hle
  · intro a ha heq
    rw [hmem.clusterMeta_eq hversion]
    exact h.describes a (hanswers ▸ ha) (heq.trans hversion)
  · intro now a ha heq
    rw [hstored] at heq ⊢
    exact h.describes_stored now a (hanswers ▸ ha) heq
  · exact fun now => by
      rw [hstored, hversion]
      exact h.stored_le now
  · intro now heq
    rw [hstored] at heq ⊢
    exact (h.stored_agrees now (heq.trans hversion)).trans hmem.symm
  · exact hanswers ▸ h.zero
  · exact fun heq => hmem.trans (h.empty (hversion.symm.trans heq))
  · intro now heq
    rw [hstored] at heq ⊢
    exact h.stored_empty now heq

private theorem versioned_changed (h : r.Versioned) (hversion : r'.mem.version = r.mem.version + 1)
    (hdisk : r'.shared.disk = r.shared.disk ∨ r'.shared.disk = some r'.mem.snapshot)
    (hreported : r'.reported = r.reported ∨ r'.reported = r'.mem.version :: r.reported)
    (hanswers : r'.answers = r.answers) : r'.Versioned := by
  have hbelow : ∀ v ∈ r.reported, v < r'.mem.version := fun v hv => by
    have := h.reported_le v hv
    omega
  obtain ⟨hsorted, hle, hkept⟩ :=
    reported_step h.ascending (fun v hv => (hbelow v hv).le) hreported
  -- nothing was ever said about the new version
  have hfresh : ∀ s : State, s.version = r'.mem.version → r'.Describes s := fun s hs a ha heq => by
    have := hbelow _ (h.answered a (hanswers ▸ ha))
    omega
  have hstored : ∀ now, r'.stored now = r.stored now ∨
      (r'.stored now).version = r'.mem.version ∧ (r'.stored now).Agrees r'.mem := fun now => by
    rcases hdisk with hdisk | hdisk
    · exact .inl (by rw [stored, hdisk, stored])
    · rw [stored, hdisk]
      exact .inr ⟨rfl, State.agrees_loadSnapshot now _⟩
  have hold : ∀ now, (r.stored now).version < r'.mem.version := fun now => by
    have := h.stored_le now
    omega
  refine { ascending := hsorted, unique := ?_, answered := ?_, reported_le := hle,
           describes := hfresh _ rfl, describes_stored := fun now => ?_, stored_le := fun now => ?_,
           stored_agrees := fun now heq => ?_, zero := ?_, empty := fun heq => by omega,
           stored_empty := fun now heq => ?_ }
  · exact hanswers ▸ h.unique
  · intro a ha
    exact hkept _ (h.answered a (hanswers ▸ ha))
  · rcases hstored now with heq | ⟨heq, -⟩
    · rw [heq]
      exact fun a ha => h.describes_stored now a (hanswers ▸ ha)
    · exact hfresh _ heq
  · rcases hstored now with heq | ⟨heq, -⟩
    · rw [heq]
      exact (hold now).le
    · exact heq.le
  · rcases hstored now with hsame | ⟨-, hagrees⟩
    · rw [hsame] at heq
      exact absurd heq (hold now).ne
    · exact hagrees
  · exact hanswers ▸ h.zero
  · rcases hstored now with hsame | ⟨hnew, -⟩
    · rw [hsame] at heq ⊢
      exact h.stored_empty now heq
    · omega

private theorem versioned_answer (h : r.Versioned) {a : ClusterMeta}
    (hshared : r'.shared = r.shared) (hreported : r'.reported = a.version :: r.reported)
    (hanswers : r'.answers = a :: r.answers) (hlast : ∀ v ∈ r.reported, v ≤ a.version)
    (hle : a.version ≤ r.mem.version) (hunique : ∀ b ∈ r.answers, b.version = a.version → b = a)
    (hmem : a.version = r.mem.version → a = r.mem.clusterMeta)
    (hstored : ∀ now, a.version = (r.stored now).version → a = (r.stored now).clusterMeta)
    (hzero : a.version = 0 → a = .default) : r'.Versioned := by
  have hmem' : r'.mem = r.mem := by rw [mem, hshared, mem]
  have hstored' : r'.stored = r.stored := funext fun now => by rw [stored, hshared, stored]
  have hall : ∀ {P : ClusterMeta → Prop}, P a → (∀ b ∈ r.answers, P b) → ∀ b ∈ r'.answers, P b :=
    fun ha hb => by
      rw [hanswers]
      exact List.forall_mem_cons.mpr ⟨ha, hb⟩
  refine { ascending := ?_, unique := ?_, answered := ?_, reported_le := ?_, describes := ?_,
           describes_stored := fun now => ?_, stored_le := ?_, stored_agrees := ?_, zero := ?_,
           empty := ?_, stored_empty := ?_ }
  · rw [hreported]
    exact List.pairwise_cons.mpr ⟨hlast, h.ascending⟩
  · refine hall (hall (fun _ => rfl) fun b hb heq => (hunique b hb heq.symm).symm) ?_
    intro b hb
    exact hall (fun heq => hunique b hb heq) fun c hc heq => h.unique b hb c hc heq
  · rw [hreported]
    exact hall List.mem_cons_self fun b hb => List.mem_cons_of_mem _ (h.answered b hb)
  · rw [hreported, hmem']
    exact List.forall_mem_cons.mpr ⟨hle, h.reported_le⟩
  · rw [hmem']
    exact hall hmem h.describes
  · rw [hstored']
    exact hall (hstored now) (h.describes_stored now)
  · rw [hstored', hmem']
    exact h.stored_le
  · rw [hstored', hmem']
    exact h.stored_agrees
  · exact hall hzero h.zero
  · rw [hmem']
    exact h.empty
  · rw [hstored']
    exact h.stored_empty

private theorem versioned_restart {now : ℕ} (h : r.Versioned)
    (hle : ∀ v ∈ r.reported, v ≤ (r.stored now).version)
    (hshared : r'.shared = r.shared.restart now) (hreported : r'.reported = r.reported)
    (hanswers : r'.answers = r.answers) : r'.Versioned := by
  have hmem : r'.mem = r.stored now := by
    rw [mem, hshared]
    rfl
  have hstored : r'.stored = r.stored := funext fun now => by
    rw [stored, hshared]
    rfl
  refine { ascending := ?_, unique := ?_, answered := ?_, reported_le := ?_, describes := ?_,
           describes_stored := ?_, stored_le := fun now' => ?_,
           stored_agrees := fun now' _ => ?_, zero := ?_, empty := ?_, stored_empty := ?_ }
  · rw [hreported]
    exact h.ascending
  · exact hanswers ▸ h.unique
  · rw [hreported]
    exact hanswers ▸ h.answered
  · rw [hreported, hmem]
    exact hle
  · rw [hmem]
    exact fun a ha => h.describes_stored now a (hanswers ▸ ha)
  · rw [hstored]
    exact fun now a ha => h.describes_stored now a (hanswers ▸ ha)
  · rw [hstored, hmem]
    exact (State.version_loadSnapshot_at now' now _).le
  · rw [hstored, hmem]
    exact State.agrees_loadSnapshot_at now' now _
  · exact hanswers ▸ h.zero
  · rw [hmem]
    exact h.stored_empty now
  · rw [hstored]
    exact h.stored_empty

private theorem versioned_step {a : Action} (h : r.Versioned) (ha : r.Traceable a)
    (hstep : step r a = some r') : r'.Versioned := by
  cases steps_of_step hstep with
  | mutated m persisted hm hshared hpersisted hreported hanswers =>
    have hcases := Shared.mutate_cases (c := r.shared) persisted hm.version
    rw [← hshared] at hcases
    rcases hcases with ⟨hflag, hmem, hdisk⟩ | ⟨hversion, hdisk⟩
    · have hmem' : r'.mem = m.2 := hmem
      rw [hmem', hm.version] at hreported
      exact versioned_quiet h (hmem' ▸ hm.quiet hflag) (hmem' ▸ hm.version) hdisk hreported hanswers
    · exact versioned_changed h hversion hdisk hreported hanswers
  | described hshared hreported hanswers =>
    exact versioned_answer h hshared hreported hanswers h.reported_le le_rfl h.describes
      (fun _ => rfl)
      (fun now heq => ((h.stored_agrees now heq.symm).clusterMeta_eq heq.symm).symm)
      fun heq => clusterMeta_of_agrees_empty (h.empty heq) heq
  | misdirected now persisted ha' hshared hreported hanswers =>
    subst ha'
    have hzero : ∀ v ∈ r.reported, v = 0 := ha
    exact versioned_answer h hshared hreported hanswers (fun v hv => (hzero v hv).le)
      (Nat.zero_le _) h.zero
      (fun heq => (clusterMeta_of_agrees_empty (h.empty heq.symm) heq.symm).symm)
      (fun now heq => (clusterMeta_of_agrees_empty (h.stored_empty now heq.symm) heq.symm).symm)
      fun _ => rfl
  | restarted now ha' hshared hreported hanswers =>
    subst ha'
    exact versioned_restart h ha hshared hreported hanswers

/-- The versions given out never go down and each stands for one content, in every run in which a
restart finds a snapshot at least as new as what was given out. -/
theorem versions_sound {config : ControllerConfig} (h : Reach step Traceable (init config) r) :
    r.VersionsSound :=
  (h.invariant (versioned_init config) fun _ _ _ hr ha hstep =>
    versioned_step hr ha hstep).toVersionsSound

/-- A snapshot write fails, the next one succeeds, and only then the controller restarts. -/
theorem versions_sound_rewritten :
    ∃ r : Run, r.reported = [2, 2, 2, 1] ∧ r.answers.length = 2 ∧ r.VersionsSound := by
  obtain ⟨r, hreach, hp⟩ := Reach.exists_of_runSteps step Traceable (init ⟨10⟩)
    [.request (.registerBroker 1 "a" "a") 0 false, .request (.registerBroker 1 "b" "b") 1 true,
      .request .controllerMetadata 1 true, .restart 2, .request .controllerMetadata 3 true]
    (fun r => r.reported = [2, 2, 2, 1] ∧ r.answers.length = 2) (by decide)
  exact ⟨r, hp.1, hp.2, versions_sound hreach⟩

/-- A snapshot write fails and the controller restarts: version 1 is given out after version 2,
and version 2 is given out with two addresses of broker 1. -/
theorem versions_unsound :
    ∃ r, Reach step (fun _ _ => True) (init ⟨10⟩) r ∧ ¬ r.reported.Pairwise (· ≥ ·) ∧
      ∃ a ∈ r.answers, ∃ b ∈ r.answers, a.version = b.version ∧ a ≠ b :=
  Reach.exists_of_runSteps step (fun _ _ => True) (init ⟨10⟩)
    [.request (.registerBroker 1 "a" "a") 0 true, .request (.registerBroker 1 "b" "b") 1 false,
      .request .controllerMetadata 1 true, .restart 2, .request (.brokerHeartbeat 1) 3 true,
      .request (.registerBroker 1 "c" "c") 4 true, .request .controllerMetadata 4 true]
    (fun r => ¬ r.reported.Pairwise (· ≥ ·) ∧
      ∃ a ∈ r.answers, ∃ b ∈ r.answers, a.version = b.version ∧ a ≠ b) (by decide)

end Run
end Replog.Controller

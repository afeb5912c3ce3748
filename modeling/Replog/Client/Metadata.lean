import Replog.Library.Transition
import Replog.Proto.Message

/-!
# The cluster client's metadata

A refresh asks all known brokers one after the other and stores the newest answer of its round, and
several refreshes run at a time. A round in which only brokers with an old view answer takes the
client back.
-/

namespace Replog.Client
open Replog.Library
open Replog.Proto (ClusterMeta)

structure Refresh where
  candidates : List String
  best : Option ClusterMeta
  answers : List ClusterMeta

structure ClusterClient where
  bootstrap : List String
  cluster : ClusterMeta
  /-- The first refresh went well, and the client is in use. -/
  connected : Bool
  refreshes : List Refresh

inductive RefreshEvent where
  | start
  /-- The next broker answers the refresh, or cannot be reached. -/
  | answer (refresh : ℕ) (response : Option ClusterMeta)
  | store (refresh : ℕ)

namespace ClusterClient

def start (bootstrap : List String) : ClusterClient :=
  { bootstrap, cluster := default, connected := false, refreshes := [] }

/-- The bootstrap addresses and the known brokers, each once. -/
def candidates (s : ClusterClient) : List String :=
  (s.bootstrap ++ s.cluster.brokers.map Prod.snd).eraseDups

def newest (best : Option ClusterMeta) (cluster : ClusterMeta) : Option ClusterMeta :=
  match best with
  | none => some cluster
  | some b => if cluster.version > b.version then some cluster else some b

def step (s : ClusterClient) : RefreshEvent → Option ClusterClient
  | .start =>
    if s.connected ∨ s.refreshes = [] then
      some { s with refreshes :=
        s.refreshes ++ [{ candidates := s.candidates, best := none, answers := [] }] }
    else none
  | .answer refresh response =>
    match s.refreshes[refresh]? with
    | none => none
    | some r =>
      match r.candidates with
      | [] => none
      | _ :: rest =>
        let r' := { r with
          candidates := rest
          best := response.elim r.best (newest r.best)
          answers := r.answers ++ response.toList }
        some { s with refreshes := s.refreshes.set refresh r' }
  | .store refresh =>
    match s.refreshes[refresh]? with
    | none => none
    | some r =>
      if r.candidates = [] then
        let s' := { s with refreshes := s.refreshes.eraseIdx refresh }
        match r.best with
        | some cluster => some { s' with cluster, connected := true }
        | none => some s'
      else none

/-! ## Runs -/

/-- The states along a run, up to the first event that cannot happen. -/
def states (s : ClusterClient) : List RefreshEvent → List ClusterClient
  | [] => [s]
  | e :: events =>
    match s.step e with
    | none => [s]
    | some s' => s :: s'.states events

/-- The version of the cached metadata never decreases. -/
def NeverDecreases (s : ClusterClient) (events : List RefreshEvent) : Prop :=
  (s.states events).Pairwise fun s s' => s.cluster.version ≤ s'.cluster.version

/-- A round that ends now had no answer, or one at least as new as what is cached. -/
def Fresh (s : ClusterClient) : RefreshEvent → Prop
  | .store refresh => ∀ r ∈ s.refreshes[refresh]?, r.answers = [] ∨
      ∃ cluster ∈ r.answers, s.cluster.version ≤ cluster.version
  | _ => True

/-- So it is with every event of the run. -/
def AllFresh (s : ClusterClient) : List RefreshEvent → Prop
  | [] => True
  | e :: events => ∀ s' ∈ s.step e, s.Fresh e ∧ s'.AllFresh events

end ClusterClient

/-- The best of an answered round is one of the newest answers. -/
structure Refresh.Inv (r : Refresh) : Prop where
  best_none : r.best = none → r.answers = []
  best_mem : ∀ cluster ∈ r.best, cluster ∈ r.answers
  best_le : ∀ cluster ∈ r.best, ∀ answer ∈ r.answers, answer.version ≤ cluster.version

namespace ClusterClient

variable {s s' : ClusterClient}

def Inv (s : ClusterClient) : Prop := ∀ r ∈ s.refreshes, r.Inv

private theorem inv_answer {r : Refresh} (h : r.Inv) (rest : List String)
    (response : Option ClusterMeta) : Refresh.Inv { r with
      candidates := rest
      best := response.elim r.best (newest r.best)
      answers := r.answers ++ response.toList } := by
  cases response with
  | none =>
    simp only [Option.elim_none, Option.toList_none, List.append_nil]
    exact ⟨h.best_none, h.best_mem, h.best_le⟩
  | some cluster =>
    simp only [Option.elim_some, Option.toList_some]
    cases hbest : r.best with
    | none =>
      rw [h.best_none hbest]
      refine ⟨nofun, fun c hc => ?_, fun c hc answer hanswer => ?_⟩
      · cases hc
        exact List.mem_singleton_self _
      · cases hc
        rw [List.mem_singleton.mp hanswer]
        exact UInt64.le_refl _
    | some b =>
      have hmem := h.best_mem b hbest
      have hle := h.best_le b hbest
      rw [newest]
      split
      · rename_i hnewer
        refine ⟨nofun, fun c hc => ?_, fun c hc answer hanswer => ?_⟩
        · cases hc
          exact List.mem_append_right _ (List.mem_singleton_self _)
        · cases hc
          rcases List.mem_append.mp hanswer with hanswer | hanswer
          · exact UInt64.le_trans (hle answer hanswer) (UInt64.le_of_lt hnewer)
          · rw [List.mem_singleton.mp hanswer]
            exact UInt64.le_refl _
      · rename_i holder
        refine ⟨nofun, fun c hc => ?_, fun c hc answer hanswer => ?_⟩
        · cases hc
          exact List.mem_append_left _ hmem
        · cases hc
          rcases List.mem_append.mp hanswer with hanswer | hanswer
          · exact hle answer hanswer
          · rw [List.mem_singleton.mp hanswer]
            exact UInt64.not_lt.mp holder

/-- A step keeps the version from decreasing if and only if it is fresh. -/
theorem Inv.step (h : s.Inv) {e : RefreshEvent} (hstep : s.step e = some s') :
    s'.Inv ∧ (s.cluster.version ≤ s'.cluster.version ↔ s.Fresh e) := by
  cases e with
  | start =>
    obtain ⟨-, hs'⟩ := Option.ite_none_right_eq_some.mp hstep
    cases hs'
    refine ⟨fun r hr => ?_, iff_of_true (UInt64.le_refl _) trivial⟩
    rcases List.mem_append.mp hr with hr | hr
    · exact h r hr
    · rw [List.mem_singleton.mp hr]
      exact ⟨fun _ => rfl, nofun, nofun⟩
  | answer refresh response =>
    rw [ClusterClient.step] at hstep
    split at hstep
    · cases hstep
    · rename_i r hr
      split at hstep
      · cases hstep
      · rename_i rest hcandidates
        cases hstep
        refine ⟨fun r' hr' => ?_, iff_of_true (UInt64.le_refl _) trivial⟩
        rcases List.mem_or_eq_of_mem_set hr' with hr' | rfl
        · exact h r' hr'
        · exact inv_answer (h r (List.mem_of_getElem? hr)) rest response
  | store refresh =>
    rw [ClusterClient.step] at hstep
    split at hstep
    · cases hstep
    · rename_i r hr
      have hround : s.Fresh (.store refresh) ↔ r.answers = [] ∨
          ∃ cluster ∈ r.answers, s.cluster.version ≤ cluster.version := by
        simp [Fresh, hr]
      have hinv := h r (List.mem_of_getElem? hr)
      rw [hround]
      split at hstep
      · dsimp only at hstep
        split at hstep
        · rename_i cluster hbest
          cases hstep
          refine ⟨fun r' hr' => h r' (List.mem_of_mem_eraseIdx hr'), ?_⟩
          have hmem := hinv.best_mem cluster hbest
          constructor
          · exact fun hle => .inr ⟨cluster, hmem, hle⟩
          · rintro (hnil | ⟨answer, hanswer, hle⟩)
            · rw [hnil] at hmem
              cases hmem
            · exact UInt64.le_trans hle (hinv.best_le cluster hbest answer hanswer)
        · rename_i hbest
          cases hstep
          exact ⟨fun r' hr' => h r' (List.mem_of_mem_eraseIdx hr'),
            iff_of_true (UInt64.le_refl _) (.inl (hinv.best_none hbest))⟩
      · cases hstep

private theorem mem_states (s : ClusterClient) (events : List RefreshEvent) : s ∈ s.states events := by
  cases events with
  | nil => exact List.mem_singleton_self s
  | cons e events =>
    rw [states]
    split
    · exact List.mem_singleton_self s
    · exact List.mem_cons_self

private theorem Inv.neverDecreases (h : s.Inv) (events : List RefreshEvent) :
    s.NeverDecreases events ↔ s.AllFresh events := by
  induction events generalizing s with
  | nil => exact iff_of_true (List.pairwise_singleton _ _) trivial
  | cons e events ih =>
    rw [NeverDecreases, states, AllFresh]
    cases hstep : s.step e with
    | none => exact iff_of_true (List.pairwise_singleton _ _) nofun
    | some s' =>
      obtain ⟨hinv, hversion⟩ := h.step hstep
      simp only [Option.mem_def, Option.some.injEq, forall_eq', List.pairwise_cons, ← hversion,
        ← ih hinv]
      constructor
      · rintro ⟨hhead, htail⟩
        exact ⟨hhead s' (s'.mem_states events), htail⟩
      · rintro ⟨hle, htail⟩
        refine ⟨fun t ht => ?_, htail⟩
        cases events with
        | nil =>
          rw [List.mem_singleton.mp ht]
          exact hle
        | cons e' events =>
          rw [NeverDecreases, states] at htail
          rw [states] at ht
          split at ht
          · rw [List.mem_singleton.mp ht]
            exact hle
          · rename_i hnext
            rw [hnext, List.pairwise_cons] at htail
            rcases List.mem_cons.mp ht with rfl | ht
            · exact hle
            · exact UInt64.le_trans hle (htail.1 t ht)

/-- In every interleaving of refreshes the version never decreases if and only if every round ends
with an answer at least as new as what is cached then, or with none. -/
theorem neverDecreases_iff (bootstrap : List String) (events : List RefreshEvent) :
    (start bootstrap).NeverDecreases events ↔ (start bootstrap).AllFresh events :=
  Inv.neverDecreases (fun _ hr => absurd hr List.not_mem_nil) events

/-- The second broker still has the first version. In the second round it is the only one to
answer. -/
theorem view_goes_back : ¬ (start ["a", "b"]).NeverDecreases
    [.start, .answer 0 (some ⟨2, [], [], []⟩), .answer 0 (some ⟨1, [], [], []⟩), .store 0,
      .start, .answer 0 none, .answer 0 (some ⟨1, [], [], []⟩), .store 0] := by
  have hversions : ((start ["a", "b"]).states
      [.start, .answer 0 (some ⟨2, [], [], []⟩), .answer 0 (some ⟨1, [], [], []⟩), .store 0,
        .start, .answer 0 none, .answer 0 (some ⟨1, [], [], []⟩), .store 0]).map
      (·.cluster.version) = [0, 0, 0, 0, 2, 2, 2, 2, 1] := by decide
  intro h
  have hpairs := List.pairwise_map.mpr h
  rw [hversions] at hpairs
  exact absurd hpairs (by decide)

end ClusterClient
end Replog.Client

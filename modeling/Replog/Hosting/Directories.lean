import Replog.Hosting.Restarts

/-!
# One directory for every log

A broker in cluster mode takes the topic names of the controller's answers as they are and joins
them to its data directory as paths. The controller takes any name for a topic; the logs keep
apart as long as no name it was given has a separator in it or is that of the offsets log.
-/

namespace Replog.Hosting
open Replog.Library
open Replog.Controller

/-! ## Paths -/

/-- One component of a path: the names of the directories on the way from the root, none of them
a link. -/
def descend (dir : List String) (name : String) : List String :=
  if name = "" ∨ name = "." then dir
  else if name = ".." then dir.dropLast
  else dir ++ [name]

/-- Joins a path to a directory; an absolute path replaces it. -/
def joinPath (dir : List String) (path : String) : List String :=
  ((path.toList.splitOn '/').map String.ofList).foldl descend
    (if path.toList.head? = some '/' then [] else dir)

/-- A partition log: the internal offsets log, or a replica. -/
abbrev LogKey := Option (String × ℕ)

def logName : LogKey → String
  | none => partitionName offsetsTopic 0
  | some (topic, p) => partitionName topic p

def logDir (dataDir : List String) (log : LogKey) : List String := joinPath dataDir (logName log)

/-- The name is a file name, and not that of the offsets topic. -/
def PlainTopic (topic : String) : Prop := '/' ∉ topic.toList ∧ topic ≠ offsetsTopic

instance (topic : String) : Decidable (PlainTopic topic) := inferInstanceAs (Decidable (_ ∧ _))

private theorem not_mem_partitionName {topic : String} (h : '/' ∉ topic.toList) (p : ℕ) :
    '/' ∉ (partitionName topic p).toList := by
  rw [toList_partitionName, List.mem_append, List.mem_cons]
  rintro (hmem | heq | hmem)
  · exact h hmem
  · exact absurd heq (by decide)
  · exact absurd (Nat.isDigit_of_mem_toDigits (by decide) (by decide) hmem) (by decide)

/-- Without a separator the directory of a partition is a child of the data directory. -/
theorem joinPath_partitionName {topic : String} (h : '/' ∉ topic.toList) (p : ℕ)
    (dataDir : List String) :
    joinPath dataDir (partitionName topic p) = dataDir ++ [partitionName topic p] := by
  have hslash := not_mem_partitionName h p
  have hrelative : (partitionName topic p).toList.head? ≠ some '/' := fun hhead =>
    hslash (List.mem_of_mem_head? hhead)
  have hdash : '-' ∈ (partitionName topic p).toList := by
    rw [toList_partitionName]
    exact List.mem_append_right _ List.mem_cons_self
  have hne : ∀ name : String, '-' ∉ name.toList → partitionName topic p ≠ name := fun name hname
    heq => hname (heq ▸ hdash)
  rw [joinPath, List.splitOn_eq_singleton hslash, if_neg hrelative, List.map_singleton,
    List.foldl_cons, List.foldl_nil, String.ofList_toList, descend, if_neg, if_neg]
  · exact hne ".." (by decide)
  · exact not_or.mpr ⟨hne "" (by decide), hne "." (by decide)⟩

theorem logDir_of_plain {log : LogKey} (h : ∀ key ∈ log, PlainTopic key.1)
    (dataDir : List String) : logDir dataDir log = dataDir ++ [logName log] := by
  cases log with
  | none => exact joinPath_partitionName (by decide) 0 dataDir
  | some key => exact joinPath_partitionName (h key rfl).1 key.2 dataDir

private theorem logName_inj {log log' : LogKey} (h : ∀ key ∈ log, PlainTopic key.1)
    (h' : ∀ key ∈ log', PlainTopic key.1) (heq : logName log = logName log') : log = log' := by
  have hinj : ∀ {topic topic' p p'}, partitionName topic p = partitionName topic' p' →
      topic = topic' ∧ p = p' := fun {topic topic' p p'} hname => by
    have hentry : partitionEntry (topic, p) = partitionEntry (topic', p') :=
      congrArg (DirEntry.mk · true) hname
    exact Prod.mk.inj (partitionEntry_injective hentry)
  cases log with
  | none =>
    cases log' with
    | none => rfl
    | some key' => exact absurd (hinj heq).1.symm (h' key' rfl).2
  | some key =>
    cases log' with
    | none => exact absurd (hinj heq).1 (h key rfl).2
    | some key' =>
      obtain ⟨htopic, hp⟩ := hinj heq
      exact congrArg some (Prod.ext htopic hp)

/-! ## Runs -/

/-- The controller, and the replicas each broker has opened beside its offsets log. -/
structure Replicas where
  controller : Controller.Run
  opened : UInt32 → List (String × ℕ)

namespace Replicas

inductive Action where
  | controller (a : Controller.Action)
  /-- The broker opens a partition that some answer gives it to host. -/
  | openReplica (b : UInt32) (answer : ℕ) (key : String × ℕ)
  | restart (b : UInt32)

def init (config : ControllerConfig) : Replicas where
  controller := .init config
  opened _ := []

local instance lawfulBEqSlot : LawfulBEq (String × ℕ) := Prod.instLawfulBEq

def step (c : Replicas) : Action → Option Replicas
  | .controller a => (c.controller.step a).map fun controller => { c with controller }
  | .openReplica b answer key =>
    c.controller.answers[answer]?.bind fun cluster =>
      if key ∈ hosted b cluster then
        some { c with opened := Function.update c.opened b ((c.opened b).insert key) }
      else none
  | .restart b => some { c with opened := Function.update c.opened b [] }

def logs (c : Replicas) (b : UInt32) : List LogKey := none :: (c.opened b).map some

/-- Every topic that is created has a plain name. -/
def PlainNames (c : Replicas) : Action → Prop
  | .controller (.request (.createTopic topic partitions replicationFactor) _ _) =>
    (createTopic topic partitions replicationFactor c.controller.mem).1 = .none → PlainTopic topic
  | _ => True

instance : ∀ c, DecidablePred (PlainNames c)
  | c, .controller (.request (.createTopic topic partitions replicationFactor) _ _) =>
    inferInstanceAs (Decidable ((createTopic topic partitions replicationFactor
      c.controller.mem).1 = .none → PlainTopic topic))
  | _, .controller (.request (.registerBroker ..) _ _) => inferInstanceAs (Decidable True)
  | _, .controller (.request (.brokerHeartbeat _) _ _) => inferInstanceAs (Decidable True)
  | _, .controller (.request .controllerMetadata _ _) => inferInstanceAs (Decidable True)
  | _, .controller (.request (.alterIsr ..) _ _) => inferInstanceAs (Decidable True)
  | _, .controller (.request .other _ _) => inferInstanceAs (Decidable True)
  | _, .controller (.sweepLiveness ..) => inferInstanceAs (Decidable True)
  | _, .controller (.restart _) => inferInstanceAs (Decidable True)
  | _, .openReplica .. => inferInstanceAs (Decidable True)
  | _, .restart _ => inferInstanceAs (Decidable True)

/-- No two logs in one directory, and every one in a child of the data directory. -/
structure SingleWriter (dataDir : List String) (logs : List LogKey) : Prop where
  nodup : logs.Nodup
  distinct : ∀ log ∈ logs, ∀ log' ∈ logs, log ≠ log' → logDir dataDir log ≠ logDir dataDir log'
  child : ∀ log ∈ logs, ∃ name, logDir dataDir log = dataDir ++ [name]

def Plain (placement : String → ℕ → Option (List UInt32)) : Prop :=
  ∀ topic k replicas, placement topic k = some replicas → PlainTopic topic

structure Inv (c : Replicas) : Prop where
  controller : c.controller.Places Plain
  opened : ∀ b, (c.opened b).Nodup ∧ ∀ key ∈ c.opened b, PlainTopic key.1

theorem plain_empty : Plain State.empty.replicasAt := nofun

private theorem plain_createTopic {topic : String} {partitions replicationFactor : ℕ} {s : State}
    (h : Plain s.replicasAt)
    (htopic : (createTopic topic partitions replicationFactor s).1 = .none → PlainTopic topic) :
    Plain (createTopic topic partitions replicationFactor s).2.2.replicasAt := by
  intro topic' k replicas hk
  rw [State.replicasAt_createTopic] at hk
  split at hk
  · rename_i hnew
    exact hnew.1 ▸ htopic hnew.2
  · exact h topic' k replicas hk

theorem inv_init (config : ControllerConfig) : (init config).Inv where
  controller := Run.places_init plain_empty config
  opened _ := ⟨.nil, nofun⟩

variable {c c' : Replicas}

theorem Inv.update (h : c.Inv) {b : UInt32} {keys : List (String × ℕ)} (hnodup : keys.Nodup)
    (hplain : ∀ key ∈ keys, PlainTopic key.1) :
    Inv { c with opened := Function.update c.opened b keys } := by
  refine ⟨h.controller, fun b' => ?_⟩
  dsimp only
  by_cases hb : b' = b
  · rw [hb, Function.update_self]
    exact ⟨hnodup, hplain⟩
  · rw [Function.update_of_ne hb]
    exact h.opened b'

theorem inv_of_step (h : c.Inv) {a : Action} (ha : c.PlainNames a) (hstep : c.step a = some c') :
    c'.Inv := by
  cases a with
  | controller a =>
    obtain ⟨controller, hcontroller, rfl⟩ := Option.map_eq_some_iff.mp hstep
    refine ⟨h.controller.step plain_empty ?_ hcontroller, h.opened⟩
    rintro topic partitions replicationFactor now persisted rfl
    exact plain_createTopic h.controller.shared.mem ha
  | openReplica b answer key =>
    obtain ⟨cluster, hcluster, hopen⟩ := Option.bind_eq_some_iff.mp hstep
    split at hopen
    · rename_i hkey
      cases hopen
      obtain ⟨s, hs, rfl⟩ := h.controller.answers cluster (List.mem_of_getElem? hcluster)
      obtain ⟨replicas, hreplicas, -⟩ := mem_hosted.mp hkey
      refine h.update (h.opened b).1.insert fun key' hkey' => ?_
      rcases List.mem_insert_iff.mp hkey' with rfl | hkey'
      · exact hs key'.1 key'.2 replicas hreplicas
      · exact (h.opened b).2 key' hkey'
    · cases hopen
  | restart b =>
    cases hstep
    exact h.update .nil nofun

/-- As long as every topic that is created has a plain name, every broker has a directory of its
own for each log it has open, right below its data directory. -/
theorem single_writer {config : ControllerConfig} (h : Reach step PlainNames (init config) c)
    (b : UInt32) (dataDir : List String) : SingleWriter dataDir (c.logs b) := by
  have hinv : c.Inv := h.invariant (inv_init config) fun _ _ _ hs ha hstep =>
    inv_of_step hs ha hstep
  obtain ⟨hnodup, hplain⟩ := hinv.opened b
  have hkeys : ∀ log ∈ c.logs b, ∀ key ∈ log, PlainTopic key.1 := by
    intro log hlog key hkey
    rcases List.mem_cons.mp hlog with rfl | hlog
    · cases hkey
    · obtain ⟨key', hkey', rfl⟩ := List.mem_map.mp hlog
      cases hkey
      exact hplain key hkey'
  refine ⟨?_, fun log hlog log' hlog' hne heq => hne ?_, fun log hlog => ?_⟩
  · refine List.nodup_cons.mpr ⟨?_, hnodup.map (Option.some_injective _)⟩
    simp
  · rw [logDir_of_plain (hkeys log hlog), logDir_of_plain (hkeys log' hlog'),
      List.append_cancel_left_eq] at heq
    exact logName_inj (hkeys log hlog) (hkeys log' hlog') (List.cons.inj heq).1
  · exact ⟨_, logDir_of_plain (hkeys log hlog) dataDir⟩

/-- Broker 1 hosts the only partition of a topic with this name. -/
def hosting (topic : String) : List Action :=
  [.controller (.request (.registerBroker 1 "a" "a") 0 true),
    .controller (.request (.createTopic topic 1 1) 0 true),
    .controller (.request .controllerMetadata 0 true), .openReplica 1 0 (topic, 0)]

theorem single_writer_dashes :
    ∃ c : Replicas, c.logs 1 = [none, some ("a-0", 0)] ∧ SingleWriter ["data"] (c.logs 1) := by
  obtain ⟨c, hreach, hlogs⟩ := Reach.exists_of_runSteps step PlainNames (init ⟨10⟩)
    (hosting "a-0") (fun c => c.logs 1 = [none, some ("a-0", 0)]) (by decide)
  exact ⟨c, hlogs, single_writer hreach 1 ["data"]⟩

/-- A topic with the name of the offsets topic has the directory of the offsets log. -/
theorem offsets_shared : ∃ c, Reach step (fun _ _ => True) (init ⟨10⟩) c ∧
    c.logs 1 = [none, some ("__offsets", 0)] ∧
    logDir ["data"] none = logDir ["data"] (some ("__offsets", 0)) ∧
    ¬ SingleWriter ["data"] (c.logs 1) := by
  obtain ⟨c, hreach, hlogs⟩ := Reach.exists_of_runSteps step (fun _ _ => True) (init ⟨10⟩)
    (hosting "__offsets") (fun c => c.logs 1 = [none, some ("__offsets", 0)]) (by decide)
  refine ⟨c, hreach, hlogs, rfl, fun h => ?_⟩
  rw [hlogs] at h
  exact h.distinct none (by simp) (some ("__offsets", 0)) (by simp) (by simp) rfl

end Replicas
end Replog.Hosting

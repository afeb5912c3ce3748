import Replog.Library.AssocList
import Replog.Library.Transition
import Replog.Proto.Codec

/-!
# The pipelined connection

Calls park the sender of their response under a correlation id, hand their frame to the write task
and wait. The read task takes responses off the wire and routes them by that id. When it exits it
closes the connection under the lock of the parked senders.
-/

namespace Replog.Client
open Replog.Library
open Replog.Proto (Response decodeResponse)

inductive Stage where
  /-- It has its correlation id, but not the lock. -/
  | registering
  /-- Its sender is parked, its frame not handed over. -/
  | sending
  /-- Its frame was refused, its sender not yet removed. -/
  | removing
  | waiting
  | failed
  deriving DecidableEq

structure Call where
  corr : UInt32
  stage : Stage
  /-- What its receiver was completed with. -/
  received : List (UInt32 × Response)
  deriving DecidableEq

/-- The parked senders, as the number of the call whose receiver is at the other end. -/
structure Pending where
  map : Assoc UInt32 ℕ
  closed : Bool

inductive ReadTask where
  | reading
  /-- It has a response and not yet the lock. -/
  | decoded (corr : UInt32) (resp : Response)
  /-- It took the sender of a call out of the map. -/
  | completing (call : ℕ) (corr : UInt32) (resp : Response)
  | exiting
  | done
  deriving DecidableEq

structure Connection where
  nextCorr : UInt32
  pending : Pending
  readTask : ReadTask
  /-- Some clone of the connection is left. -/
  alive : Bool
  /-- All calls of `call_start` so far. -/
  calls : List Call
  /-- The number of calls of `call_start` and `send_only`. -/
  invoked : ℕ

/-- What a thread that calls does next, or the read task. -/
inductive Event where
  | callStart
  | register (call : ℕ)
  | send (call : ℕ) (ok : Bool)
  | unregister (call : ℕ)
  | sendOnly
  | dropClones
  | frame (body : List UInt8)
  | streamEnd
  | route
  | complete
  | exit
  deriving DecidableEq

namespace Connection

def connect : Connection where
  nextCorr := 1
  pending := { map := ∅, closed := false }
  readTask := .reading
  alive := true
  calls := []
  invoked := 0

/-- The call in the middle of `call_start`, if it is at this stage. -/
def callAt (s : Connection) (call : ℕ) (stage : Stage) : Option Call :=
  s.calls[call]?.filter fun c => c.stage = stage

def setCall (s : Connection) (call : ℕ) (c : Call) : Connection :=
  { s with calls := s.calls.set call c }

def step (s : Connection) : Event → Option Connection
  | .callStart =>
    if s.alive then
      some { s with
        nextCorr := s.nextCorr + 1
        calls := s.calls ++ [{ corr := s.nextCorr, stage := .registering, received := [] }]
        invoked := s.invoked + 1 }
    else none
  | .register call =>
    (s.callAt call .registering).map fun c =>
      if s.pending.closed then s.setCall call { c with stage := .failed }
      else
        { s.setCall call { c with stage := .sending } with
          pending := { s.pending with map := s.pending.map.insert c.corr call } }
  | .send call ok =>
    (s.callAt call .sending).map fun c =>
      s.setCall call { c with stage := if ok then .waiting else .removing }
  | .unregister call =>
    (s.callAt call .removing).map fun c =>
      { s.setCall call { c with stage := .failed } with
        pending := { s.pending with map := s.pending.map.erase c.corr } }
  | .sendOnly =>
    if s.alive then some { s with nextCorr := s.nextCorr + 1, invoked := s.invoked + 1 } else none
  | .dropClones =>
    -- a call borrows its clone, and the map goes with the last one
    if ∀ c ∈ s.calls, c.stage = .waiting ∨ c.stage = .failed then
      some { s with alive := false, pending := { s.pending with map := ∅ } }
    else none
  | .frame body =>
    if s.readTask = .reading then
      match decodeResponse body with
      | .ok (corr, resp) => some { s with readTask := .decoded corr resp }
      | .error _ => some { s with readTask := .exiting }
    else none
  | .streamEnd => if s.readTask = .reading then some { s with readTask := .exiting } else none
  | .route =>
    match s.readTask with
    | .decoded corr resp =>
      if s.alive then
        match s.pending.map.lookup corr with
        | some call =>
          some { s with
            pending := { s.pending with map := s.pending.map.erase corr }
            readTask := .completing call corr resp }
        | none => some { s with readTask := .reading }
      else some { s with readTask := .done }
    | _ => none
  | .complete =>
    match s.readTask with
    | .completing call corr resp =>
      s.calls[call]?.map fun c =>
        { s.setCall call { c with received := c.received ++ [(corr, resp)] } with
          readTask := .reading }
    | _ => none
  | .exit =>
    if s.readTask = .exiting then
      if s.alive then some { s with readTask := .done, pending := { map := ∅, closed := true } }
      else some { s with readTask := .done }
    else none

/-- There are fewer than 2^32 invocations. -/
def Few (s : Connection) (e : Event) : Prop :=
  e = .callStart ∨ e = .sendOnly → s.invoked + 1 < 2 ^ 32

instance (s : Connection) (e : Event) : Decidable (s.Few e) :=
  inferInstanceAs (Decidable (_ → _))

/-! ## The invariant -/

/-- The call is past its registration, and its receiver still open. -/
def Open (s : Connection) (call : ℕ) (corr : UInt32) : Prop :=
  ∃ c, s.calls[call]? = some c ∧ c.corr = corr ∧ c.stage ≠ .registering ∧ c.received = []

structure Inv (s : Connection) : Prop where
  nextCorr_eq : s.nextCorr = UInt32.ofNat (1 + s.invoked)
  invoked_lt : s.invoked < 2 ^ 32
  numbered : ∀ c ∈ s.calls, ∃ n < s.invoked, c.corr = UInt32.ofNat (1 + n)
  distinct : (s.calls.map Call.corr).Nodup
  parked : ∀ corr call, s.pending.map.lookup corr = some call → s.Open call corr
  completing : ∀ call corr resp, s.readTask = .completing call corr resp →
    s.Open call corr ∧ s.pending.map.lookup corr = none
  received : ∀ c ∈ s.calls, c.received = [] ∨ ∃ resp, c.received = [(c.corr, resp)]
  fresh : ∀ c ∈ s.calls, c.stage = .registering → c.received = []
  closed : s.pending.closed = true → s.pending.map = ∅

variable {s s' : Connection}

private theorem inv_connect : connect.Inv where
  nextCorr_eq := by decide
  invoked_lt := by decide
  numbered := nofun
  distinct := .nil
  parked := nofun
  completing := nofun
  received := nofun
  fresh := nofun
  closed := fun _ => rfl

private theorem map_corr_setCall {call : ℕ} {c c' : Call} (hc : s.calls[call]? = some c)
    (hcorr : c'.corr = c.corr) :
    (s.setCall call c').calls.map Call.corr = s.calls.map Call.corr := by
  obtain ⟨hlt, hget⟩ := List.getElem?_eq_some_iff.mp hc
  rw [setCall, List.map_set, hcorr, ← hget, ← List.getElem_map Call.corr (h := by simpa using hlt),
    List.set_getElem_self]

theorem Inv.distinct_setCall (h : s.Inv) {call : ℕ} {c c' : Call} (hc : s.calls[call]? = some c)
    (hcorr : c'.corr = c.corr) : ((s.setCall call c').calls.map Call.corr).Nodup := by
  rw [map_corr_setCall hc hcorr]
  exact h.distinct

/-- What the map, the flag and the read task are does not depend on one call moving on. -/
theorem Inv.setStage (h : s.Inv) {call : ℕ} {c : Call} (hc : s.calls[call]? = some c)
    {stage : Stage} (hstage : stage ≠ .registering) : (s.setCall call { c with stage }).Inv := by
  obtain ⟨hlt, hget⟩ := List.getElem?_eq_some_iff.mp hc
  have hcall : c ∈ s.calls := List.mem_of_getElem? hc
  have hmem : ∀ d ∈ s.calls.set call { c with stage }, d ∈ s.calls ∨ d = { c with stage } :=
    fun d hd => List.mem_or_eq_of_mem_set hd
  have hopen : ∀ j corr, s.Open j corr → (s.setCall call { c with stage }).Open j corr := by
    rintro j corr ⟨d, hd, hcorr, hstage', hreceived⟩
    by_cases hj : call = j
    · subst hj
      cases hc.symm.trans hd
      exact ⟨_, List.getElem?_set_self hlt, hcorr, hstage, hreceived⟩
    · exact ⟨d, (List.getElem?_set_ne hj).trans hd, hcorr, hstage', hreceived⟩
  exact {
    nextCorr_eq := h.nextCorr_eq
    invoked_lt := h.invoked_lt
    numbered := fun d hd => by
      rcases hmem d hd with hd | rfl
      · exact h.numbered d hd
      · exact h.numbered c hcall
    distinct := h.distinct_setCall hc rfl
    parked := fun corr j hj => hopen j corr (h.parked corr j hj)
    completing := fun j corr resp hj =>
      ⟨hopen j corr (h.completing j corr resp hj).1, (h.completing j corr resp hj).2⟩
    received := fun d hd => by
      rcases hmem d hd with hd | rfl
      · exact h.received d hd
      · exact h.received c hcall
    fresh := fun d hd hregistering => by
      rcases hmem d hd with hd | rfl
      · exact h.fresh d hd hregistering
      · exact absurd hregistering hstage
    closed := h.closed }

theorem callAt_eq_some {call : ℕ} {stage : Stage} {c : Call} (h : s.callAt call stage = some c) :
    s.calls[call]? = some c ∧ c.stage = stage := by
  rw [callAt, Option.filter_eq_some_iff] at h
  exact ⟨h.1, by simpa using h.2⟩

private theorem Inv.call_eq (h : s.Inv) {j k : ℕ} {c d : Call} (hc : s.calls[j]? = some c)
    (hd : s.calls[k]? = some d) (hcorr : c.corr = d.corr) : j = k := by
  have hlt := (List.getElem?_eq_some_iff.mp hc).1
  refine (List.getElem?_inj (by simpa using hlt) h.distinct).mp ?_
  rw [List.getElem?_map, List.getElem?_map, hc, hd, Option.map_some, Option.map_some, hcorr]

/-- A call that has the lock of an open connection parks its sender. -/
theorem Inv.register (h : s.Inv) {call : ℕ} {c : Call} (hc : s.calls[call]? = some c)
    (hstage : c.stage = .registering) (hopen : s.pending.closed = false) :
    Inv { s.setCall call { c with stage := .sending } with
      pending := { s.pending with map := s.pending.map.insert c.corr call } } := by
  have hset := h.setStage hc (show Stage.sending ≠ .registering from nofun)
  have hlt := (List.getElem?_eq_some_iff.mp hc).1
  exact { hset with
    parked := fun corr j hj => by
      by_cases hcorr : corr = c.corr
      · subst hcorr
        rw [AList.lookup_insert, Option.some.injEq] at hj
        subst hj
        exact ⟨_, List.getElem?_set_self hlt, rfl, nofun,
          h.fresh c (List.mem_of_getElem? hc) hstage⟩
      · rw [AList.lookup_insert_ne hcorr] at hj
        exact hset.parked corr j hj
    completing := fun j corr resp hj => by
      obtain ⟨hj', hnone⟩ := hset.completing j corr resp hj
      refine ⟨hj', ?_⟩
      have hne : corr ≠ c.corr := by
        rintro rfl
        obtain ⟨⟨d, hd, hcorr, hregistered, -⟩, -⟩ := h.completing j c.corr resp hj
        cases h.call_eq hd hc hcorr
        cases hd.symm.trans hc
        exact hregistered hstage
      rw [AList.lookup_insert_ne hne]
      exact hnone
    closed := fun hclosed => by
      rw [hopen] at hclosed
      cases hclosed }

theorem Inv.erase (h : s.Inv) (corr : UInt32) :
    Inv { s with pending := { s.pending with map := s.pending.map.erase corr } } := by
  have hlookup : ∀ corr' call, (s.pending.map.erase corr).lookup corr' = some call →
      s.pending.map.lookup corr' = some call := by
    intro corr' call hcall
    by_cases hcorr : corr' = corr
    · subst hcorr
      rw [AList.lookup_erase] at hcall
      cases hcall
    · rwa [AList.lookup_erase_ne hcorr] at hcall
  exact { h with
    parked := fun corr' call hcall => h.parked corr' call (hlookup corr' call hcall)
    completing := fun call corr' resp hcall => by
      obtain ⟨hopen, hnone⟩ := h.completing call corr' resp hcall
      refine ⟨hopen, Option.eq_none_iff_forall_ne_some.mpr fun call' hcall' => ?_⟩
      cases hnone.symm.trans (hlookup corr' call' hcall')
    closed := fun hclosed => by
      rw [h.closed hclosed]
      rfl }

theorem Inv.clear (h : s.Inv) (closed : Bool) : Inv { s with pending := { map := ∅, closed } } :=
  { h with
    parked := nofun
    completing := fun call corr resp hcall => ⟨(h.completing call corr resp hcall).1, rfl⟩
    closed := fun _ => rfl }

theorem Inv.setReadTask (h : s.Inv) {readTask : ReadTask}
    (hidle : ∀ call corr resp, readTask ≠ .completing call corr resp) :
    Inv { s with readTask } :=
  { h with completing := fun call corr resp hcall => absurd hcall (hidle call corr resp) }

private theorem Inv.fresh_corr (h : s.Inv) : ∀ c ∈ s.calls, c.corr ≠ s.nextCorr := by
  intro c hc heq
  obtain ⟨n, hn, hcorr⟩ := h.numbered c hc
  rw [hcorr, h.nextCorr_eq] at heq
  have hnat := congrArg UInt32.toNat heq
  rw [UInt32.toNat_ofNat', UInt32.toNat_ofNat'] at hnat
  have hlt := h.invoked_lt
  omega

theorem Inv.invoke (h : s.Inv) (hfew : s.invoked + 1 < 2 ^ 32) :
    Inv { s with nextCorr := s.nextCorr + 1, invoked := s.invoked + 1 } :=
  { h with
    nextCorr_eq := by
      rw [h.nextCorr_eq, ← Nat.add_assoc, UInt32.ofNat_add (1 + s.invoked) 1]
      rfl
    invoked_lt := hfew
    numbered := fun c hc => by
      obtain ⟨n, hn, hcorr⟩ := h.numbered c hc
      exact ⟨n, Nat.lt_succ_of_lt hn, hcorr⟩ }

theorem Inv.callStart (h : s.Inv) (hfew : s.invoked + 1 < 2 ^ 32) :
    Inv { s with
      nextCorr := s.nextCorr + 1
      calls := s.calls ++ [{ corr := s.nextCorr, stage := .registering, received := [] }]
      invoked := s.invoked + 1 } := by
  have hnext := h.invoke hfew
  have hopen : ∀ call corr, s.Open call corr → Open { s with
      nextCorr := s.nextCorr + 1
      calls := s.calls ++ [{ corr := s.nextCorr, stage := .registering, received := [] }]
      invoked := s.invoked + 1 } call corr := by
    rintro call corr ⟨c, hc, hrest⟩
    refine ⟨c, ?_, hrest⟩
    rw [List.getElem?_append_left (List.getElem?_eq_some_iff.mp hc).1]
    exact hc
  exact { hnext with
    numbered := fun c hc => by
      rcases List.mem_append.mp hc with hc | hc
      · exact hnext.numbered c hc
      · rw [List.mem_singleton.mp hc]
        exact ⟨s.invoked, Nat.lt_succ_self _, h.nextCorr_eq⟩
    distinct := by
      rw [List.map_append, List.nodup_append]
      refine ⟨h.distinct, List.nodup_singleton _, fun corr hcorr corr' hcorr' heq => ?_⟩
      obtain ⟨c, hc, rfl⟩ := List.mem_map.mp hcorr
      rw [List.map_singleton, List.mem_singleton] at hcorr'
      exact h.fresh_corr c hc (heq.trans hcorr')
    parked := fun corr call hcall => hopen call corr (h.parked corr call hcall)
    completing := fun call corr resp hcall =>
      ⟨hopen call corr (h.completing call corr resp hcall).1,
        (h.completing call corr resp hcall).2⟩
    received := fun c hc => by
      rcases List.mem_append.mp hc with hc | hc
      · exact h.received c hc
      · rw [List.mem_singleton.mp hc]
        exact .inl rfl
    fresh := fun c hc hregistering => by
      rcases List.mem_append.mp hc with hc | hc
      · exact h.fresh c hc hregistering
      · rw [List.mem_singleton.mp hc] }

/-- The read task takes the sender of an open call out of the map. -/
theorem Inv.take (h : s.Inv) {call : ℕ} {corr : UInt32} (resp : Response)
    (hcall : s.pending.map.lookup corr = some call) :
    Inv { s with
      pending := { s.pending with map := s.pending.map.erase corr }
      readTask := .completing call corr resp } :=
  { h.erase corr with
    completing := fun call' corr' resp' heq => by
      cases heq
      exact ⟨h.parked corr call hcall, AList.lookup_erase corr s.pending.map⟩ }

/-- It completes the receiver that is at the other end, which was open so far. -/
theorem Inv.complete (h : s.Inv) {call : ℕ} {corr : UInt32} {resp : Response} {c : Call}
    (htask : s.readTask = .completing call corr resp) (hc : s.calls[call]? = some c) :
    Inv { s.setCall call { c with received := c.received ++ [(corr, resp)] } with
      readTask := .reading } := by
  obtain ⟨⟨d, hd, rfl, hstage, hreceived⟩, hnone⟩ := h.completing call corr resp htask
  cases hc.symm.trans hd
  obtain ⟨hlt, hget⟩ := List.getElem?_eq_some_iff.mp hc
  have hcall : c ∈ s.calls := List.mem_of_getElem? hc
  have hmem : ∀ d ∈ s.calls.set call { c with received := c.received ++ [(c.corr, resp)] },
      d ∈ s.calls ∨ d = { c with received := c.received ++ [(c.corr, resp)] } :=
    fun d hd => List.mem_or_eq_of_mem_set hd
  exact {
    nextCorr_eq := h.nextCorr_eq
    invoked_lt := h.invoked_lt
    numbered := fun d hd => by
      rcases hmem d hd with hd | rfl
      · exact h.numbered d hd
      · exact h.numbered c hcall
    distinct := h.distinct_setCall hc rfl
    parked := fun corr j hj => by
      obtain ⟨d, hd, hcorr, hrest⟩ := h.parked corr j hj
      refine ⟨d, ?_, hcorr, hrest⟩
      have hne : call ≠ j := by
        rintro rfl
        cases hc.symm.trans hd
        rw [hcorr] at hnone
        cases hnone.symm.trans hj
      exact (List.getElem?_set_ne hne).trans hd
    completing := nofun
    received := fun d hd => by
      rcases hmem d hd with hd | rfl
      · exact h.received d hd
      · rw [hreceived]
        exact .inr ⟨resp, rfl⟩
    fresh := fun d hd hregistering => by
      rcases hmem d hd with hd | rfl
      · exact h.fresh d hd hregistering
      · exact absurd hregistering hstage
    closed := h.closed }

theorem Inv.step (h : s.Inv) {e : Event} (hfew : s.Few e) (hstep : s.step e = some s') :
    s'.Inv := by
  cases e with
  | callStart =>
    obtain ⟨-, hs'⟩ := Option.ite_none_right_eq_some.mp hstep
    cases hs'
    exact h.callStart (hfew (.inl rfl))
  | register call =>
    obtain ⟨c, hc, rfl⟩ := Option.map_eq_some_iff.mp hstep
    obtain ⟨hc, hstage⟩ := callAt_eq_some hc
    split
    · exact h.setStage hc nofun
    · exact h.register hc hstage (Bool.eq_false_of_not_eq_true ‹_›)
  | send call ok =>
    obtain ⟨c, hc, rfl⟩ := Option.map_eq_some_iff.mp hstep
    obtain ⟨hc, -⟩ := callAt_eq_some hc
    refine h.setStage hc ?_
    cases ok <;> exact nofun
  | unregister call =>
    obtain ⟨c, hc, rfl⟩ := Option.map_eq_some_iff.mp hstep
    obtain ⟨hc, -⟩ := callAt_eq_some hc
    exact (h.setStage hc (show Stage.failed ≠ .registering from nofun)).erase c.corr
  | sendOnly =>
    obtain ⟨-, hs'⟩ := Option.ite_none_right_eq_some.mp hstep
    cases hs'
    exact h.invoke (hfew (.inr rfl))
  | dropClones =>
    obtain ⟨-, hs'⟩ := Option.ite_none_right_eq_some.mp hstep
    cases hs'
    exact { h.clear s.pending.closed with }
  | frame body =>
    obtain ⟨-, hs'⟩ := Option.ite_none_right_eq_some.mp hstep
    split at hs'
    · cases hs'
      exact h.setReadTask nofun
    · cases hs'
      exact h.setReadTask nofun
  | streamEnd =>
    obtain ⟨-, hs'⟩ := Option.ite_none_right_eq_some.mp hstep
    cases hs'
    exact h.setReadTask nofun
  | route =>
    rw [Connection.step] at hstep
    split at hstep
    · rename_i corr resp htask
      split at hstep
      · split at hstep
        · rename_i call hcall
          cases hstep
          exact h.take resp hcall
        · cases hstep
          exact h.setReadTask nofun
      · cases hstep
        exact h.setReadTask nofun
    · cases hstep
  | complete =>
    rw [Connection.step] at hstep
    split at hstep
    · rename_i call corr resp htask
      obtain ⟨c, hc, rfl⟩ := Option.map_eq_some_iff.mp hstep
      exact h.complete htask hc
    · cases hstep
  | exit =>
    obtain ⟨-, hs'⟩ := Option.ite_none_right_eq_some.mp hstep
    split at hs'
    · cases hs'
      exact (h.clear true).setReadTask nofun
    · cases hs'
      exact h.setReadTask nofun

theorem inv_of_reach (h : Reach step Few connect s) : s.Inv :=
  h.invariant inv_connect fun _ _ _ hs hfew hstep => hs.step hfew hstep

private theorem closed_of_step {e : Event} (hclosed : s.pending.closed = true)
    (hstep : s.step e = some s') : s'.pending.closed = true := by
  cases e with
  | callStart =>
    obtain ⟨-, hs'⟩ := Option.ite_none_right_eq_some.mp hstep
    cases hs'
    exact hclosed
  | register call =>
    obtain ⟨c, -, rfl⟩ := Option.map_eq_some_iff.mp hstep
    split
    · exact hclosed
    · exact hclosed
  | send call ok =>
    obtain ⟨c, -, rfl⟩ := Option.map_eq_some_iff.mp hstep
    exact hclosed
  | unregister call =>
    obtain ⟨c, -, rfl⟩ := Option.map_eq_some_iff.mp hstep
    exact hclosed
  | sendOnly =>
    obtain ⟨-, hs'⟩ := Option.ite_none_right_eq_some.mp hstep
    cases hs'
    exact hclosed
  | dropClones =>
    obtain ⟨-, hs'⟩ := Option.ite_none_right_eq_some.mp hstep
    cases hs'
    exact hclosed
  | frame body =>
    obtain ⟨-, hs'⟩ := Option.ite_none_right_eq_some.mp hstep
    split at hs' <;> cases hs' <;> exact hclosed
  | streamEnd =>
    obtain ⟨-, hs'⟩ := Option.ite_none_right_eq_some.mp hstep
    cases hs'
    exact hclosed
  | route =>
    rw [Connection.step] at hstep
    split at hstep
    · split at hstep
      · split at hstep <;> cases hstep <;> exact hclosed
      · cases hstep
        exact hclosed
    · cases hstep
  | complete =>
    rw [Connection.step] at hstep
    split at hstep
    · obtain ⟨c, -, rfl⟩ := Option.map_eq_some_iff.mp hstep
      exact hclosed
    · cases hstep
  | exit =>
    obtain ⟨-, hs'⟩ := Option.ite_none_right_eq_some.mp hstep
    split at hs'
    · cases hs'
      rfl
    · cases hs'
      exact hclosed

/-- In every interleaving the receivers are completed at most once and with their own response, and
from when the connection is closed no sender is parked. -/
theorem connection_sound (h : Reach step Few connect s) :
    (s.calls.map Call.corr).Nodup ∧
    (∀ c ∈ s.calls, c.received.length ≤ 1 ∧ ∀ r ∈ c.received, r.1 = c.corr) ∧
    (s.pending.closed = true → ∀ s', Reach step Few s s' →
      s'.pending.closed = true ∧ s'.pending.map = ∅) := by
  have hinv := inv_of_reach h
  refine ⟨hinv.distinct, fun c hc => ?_, fun hclosed s' hreach => ?_⟩
  · rcases hinv.received c hc with hnil | ⟨resp, hone⟩
    · rw [hnil]
      exact ⟨Nat.zero_le 1, nofun⟩
    · rw [hone]
      refine ⟨le_rfl, fun r hr => ?_⟩
      rw [List.mem_singleton.mp hr]
  · have hboth := hreach.invariant (P := fun s => s.Inv ∧ s.pending.closed = true)
      ⟨hinv, hclosed⟩ fun t e t' ht hfew hstep =>
        ⟨ht.1.step hfew hstep, closed_of_step ht.2 hstep⟩
    exact ⟨hboth.2, hboth.1.closed hboth.2⟩

def responseBody (corr : UInt32) : List UInt8 :=
  (Proto.encodeResponse (.createTopic .none) corr).drop 4

/-- Two calls are answered the other way round, an unknown answer in between, and a third comes too
late. -/
theorem connection_sound_swapped : ∃ s, Reach step Few connect s ∧
    s.calls = [⟨1, .waiting, [(1, .createTopic .none)]⟩, ⟨2, .waiting, [(2, .createTopic .none)]⟩,
      ⟨3, .failed, []⟩] ∧
    (∀ c ∈ s.calls, c.received.length ≤ 1 ∧ ∀ r ∈ c.received, r.1 = c.corr) ∧
    ∀ s', Reach step Few s s' → s'.pending.closed = true ∧ s'.pending.map = ∅ := by
  obtain ⟨s, hreach, hcalls, hclosed⟩ := Reach.exists_of_runSteps step Few connect
    [.callStart, .callStart, .register 1, .send 1 true, .register 0, .frame (responseBody 2),
      .send 0 true, .route, .complete, .frame (responseBody 7), .route, .frame (responseBody 1),
      .route, .callStart, .complete, .streamEnd, .exit, .register 2]
    (fun s => s.calls = [⟨1, .waiting, [(1, .createTopic .none)]⟩,
      ⟨2, .waiting, [(2, .createTopic .none)]⟩, ⟨3, .failed, []⟩] ∧ s.pending.closed = true)
    (by decide +kernel)
  obtain ⟨-, hreceived, hstays⟩ := connection_sound hreach
  exact ⟨s, hreach, hcalls, hreceived, hstays hclosed⟩

end Connection
end Replog.Client

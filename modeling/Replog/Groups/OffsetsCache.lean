import Replog.Groups.Fencing

/-!
# The cache of the committed offsets

Commits are appended to the offsets log in the order the partition thread takes them, and each
updates the cache in a task of its own once its append is acknowledged. The cache agrees with the
log again whenever the last of the commits that overlap is the one that was appended last.
-/

namespace Replog.Groups
open Replog.Library
open Replog.Proto (ErrorCode)

/-- The offset in the last record of a key. -/
def lastOffset (log : List (OffsetKey × ℕ)) (key : OffsetKey) : Option ℕ :=
  (log.reverse.find? (·.1 = key)).map Prod.snd

theorem lastOffset_append (log : List (OffsetKey × ℕ)) (e : OffsetKey × ℕ) (key : OffsetKey) :
    lastOffset (log ++ [e]) key = if e.1 = key then some e.2 else lastOffset log key := by
  rw [lastOffset, List.reverse_append, List.reverse_singleton, List.singleton_append,
    List.find?_cons]
  by_cases hkey : e.1 = key
  · simp [hkey]
  · simp [hkey, lastOffset]

/-- The replay keeps the last record of each key. -/
theorem lookup_openStore (log : List (OffsetKey × ℕ)) (key : OffsetKey) :
    (OffsetsStore.openStore log).cache.lookup key = lastOffset log key := by
  induction log using List.reverseRecOn with
  | nil => rfl
  | append_singleton log e ih =>
    have hfold : (OffsetsStore.openStore (log ++ [e])).cache =
        (OffsetsStore.openStore log).cache.insert e.1 e.2 := by
      simp only [OffsetsStore.openStore, Assoc.ofList, List.foldl_append, List.foldl_cons,
        List.foldl_nil]
    rw [hfold, lastOffset_append]
    by_cases hkey : e.1 = key
    · rw [if_pos hkey, ← hkey, AList.lookup_insert]
    · rw [if_neg hkey, AList.lookup_insert_ne (Ne.symm hkey), ih]

namespace GroupBroker

inductive StoreAction where
  | call (a : Action)
  | commit (c : Commit)
  | append (k : ℕ) (ok : Bool)
  | finish (k : ℕ) (ok : Bool)
  /-- The broker restarts from its log. -/
  | restart

def storeStep (b : GroupBroker) : StoreAction → Option GroupBroker
  | .call a => some { b with coordinator := b.coordinator.call a }
  | .commit c => some (b.commitOffset c).2
  | .append k ok => b.appendCommit k ok
  | .finish k ok => b.finishCommit k ok
  | .restart => some { coordinator := .new, tasks := [], store := .openStore b.store.log }

/-- Another commit of the key has its record in the log and has not updated the cache. -/
def Overlapped (b : GroupBroker) (k : ℕ) (key : OffsetKey) : Prop :=
  ∃ t ∈ b.tasks.eraseIdx k, t.appended = true ∧ t.commit.key = key

instance (b : GroupBroker) (k : ℕ) (key : OffsetKey) : Decidable (b.Overlapped k key) :=
  inferInstanceAs (Decidable (∃ t ∈ b.tasks.eraseIdx k, _))

/-- The commit of a key that finishes with no other one under way is acknowledged, and the last
record of the key is its own. -/
def LastWins (b : GroupBroker) : StoreAction → Prop
  | .finish k ok => ∀ t ∈ b.tasks[k]?, ¬ b.Overlapped k t.commit.key →
      ok = true ∧ lastOffset b.store.log t.commit.key = some t.commit.offset
  | _ => True

instance (b : GroupBroker) : DecidablePred b.LastWins
  | .finish k _ => inferInstanceAs (Decidable (∀ t ∈ b.tasks[k]?, _))
  | .call _ | .commit _ | .append _ _ | .restart => inferInstanceAs (Decidable True)

/-- No commit of the key is between its append and its update of the cache. -/
def Quiet (b : GroupBroker) (key : OffsetKey) : Prop :=
  ∀ t ∈ b.tasks, t.appended = true → t.commit.key ≠ key

/-- The cache has what a replay of the log would find. -/
def Agrees (b : GroupBroker) : Prop :=
  ∀ key, b.Quiet key → b.store.cache.lookup key = lastOffset b.store.log key

private theorem agrees_init : init.Agrees := fun key _ => lookup_openStore [] key

variable {b b' : GroupBroker}

/-- A key is quiet if neither one of the tasks nor any of the others is about to update it. -/
theorem quiet_of_others {k : ℕ} {t : CommitTask} {key : OffsetKey} (hk : b.tasks[k]? = some t)
    (ht : t.appended = true → t.commit.key ≠ key)
    (hothers : ∀ t' ∈ b.tasks.eraseIdx k, t'.appended = true → t'.commit.key ≠ key) :
    b.Quiet key := by
  intro t' ht' happended
  obtain ⟨i, hi, rfl⟩ := List.getElem_of_mem ht'
  by_cases hik : i = k
  · subst hik
    rw [List.getElem?_eq_getElem hi, Option.some.injEq] at hk
    rw [hk] at happended ⊢
    exact ht happended
  · exact hothers _ (List.mem_eraseIdx_iff_getElem.mpr ⟨i, hi, hik, rfl⟩) happended

theorem Agrees.appendCommit (h : b.Agrees) {k : ℕ} {ok : Bool}
    (hstep : b.appendCommit k ok = some b') : b'.Agrees := by
  rw [GroupBroker.appendCommit] at hstep
  split at hstep
  · rename_i c hc
    cases ok with
    | true =>
      simp only [if_true, Option.some.injEq] at hstep
      subst hstep
      intro key hquiet
      have hset : ⟨c, true⟩ ∈ b.tasks.set k ⟨c, true⟩ :=
        List.mem_set (List.getElem?_eq_some_iff.mp hc).1 _
      have hkey : c.key ≠ key := hquiet _ hset rfl
      dsimp only
      rw [lastOffset_append, if_neg hkey]
      refine h key (quiet_of_others hc (fun hleft => by cases hleft) fun t ht happended =>
        hquiet t ?_ happended)
      obtain ⟨i, hi, hik, rfl⟩ := List.mem_eraseIdx_iff_getElem.mp ht
      exact List.mem_iff_getElem.mpr
        ⟨i, by simpa using hi, List.getElem_set_of_ne (Ne.symm hik) _ _⟩
    | false =>
      simp only [Bool.false_eq_true, if_false, Option.some.injEq] at hstep
      subst hstep
      exact fun key hquiet => h key (quiet_of_others hc (fun hleft => by cases hleft) hquiet)
  · cases hstep

theorem Agrees.finishCommit (h : b.Agrees) {k : ℕ} {ok : Bool} (hlast : b.LastWins (.finish k ok))
    (hstep : b.finishCommit k ok = some b') : b'.Agrees := by
  rw [GroupBroker.finishCommit] at hstep
  split at hstep
  · rename_i c hc
    cases hstep
    intro key hquiet
    by_cases hkey : c.key = key
    · have hnone : ¬ b.Overlapped k c.key := by
        rintro ⟨t, ht, happended, hsame⟩
        exact hquiet t ht happended (hsame.trans hkey)
      obtain ⟨rfl, hoffset⟩ := hlast _ hc hnone
      subst hkey
      exact (AList.lookup_insert _).trans hoffset.symm
    · have hold : b.Quiet key := quiet_of_others hc (fun _ => hkey) hquiet
      cases ok with
      | true => exact (AList.lookup_insert_ne (Ne.symm hkey)).trans (h key hold)
      | false => exact h key hold
  · cases hstep

theorem Agrees.step (h : b.Agrees) {a : StoreAction} (hlast : b.LastWins a)
    (hstep : b.storeStep a = some b') : b'.Agrees := by
  cases a with
  | call a =>
    cases hstep
    exact h
  | commit c =>
    cases hstep
    rcases b.commitOffset_spec c with hsame | ⟨-, hnew⟩
    · rw [hsame]
      exact h
    · rw [hnew]
      exact fun key hquiet => h key fun t ht => hquiet t (List.mem_append_left _ ht)
  | append k ok => exact h.appendCommit hstep
  | finish k ok => exact h.finishCommit hlast hstep
  | restart =>
    cases hstep
    exact fun key _ => lookup_openStore b.store.log key

/-- Where the last of the commits that overlap is always the one appended last, the cache agrees
with the log whenever no commit is in flight, and a restart changes no answer. -/
theorem cache_agrees (h : Reach storeStep LastWins init b) (hidle : b.tasks = []) :
    (∀ key, b.store.cache.lookup key = lastOffset b.store.log key) ∧
      ∀ group topic partition, (OffsetsStore.openStore b.store.log).fetch group topic partition =
        b.store.fetch group topic partition := by
  have hagrees : b.Agrees := h.invariant agrees_init fun _ _ _ hs hlast hstep =>
    hs.step hlast hstep
  have hall : ∀ key, b.store.cache.lookup key = lastOffset b.store.log key := fun key =>
    hagrees key (by rw [Quiet, hidle]; exact nofun)
  exact ⟨hall, fun group topic partition => (lookup_openStore _ _).trans (hall _).symm⟩

/-- Two unfenced commits for one partition. -/
def racing : List StoreAction :=
  [.commit ⟨"g", "t", 0, 5, "", 0⟩, .commit ⟨"g", "t", 0, 9, "", 0⟩, .append 0 true, .append 1 true]

theorem cache_agrees_ordered : ∃ b : GroupBroker, b.store.fetch "g" "t" 0 = some 9 ∧
    (OffsetsStore.openStore b.store.log).fetch "g" "t" 0 = some 9 := by
  obtain ⟨b, hreach, hidle, hfetch⟩ := Reach.exists_of_runSteps storeStep LastWins init
    (racing ++ [.finish 0 true, .finish 0 true])
    (fun b => b.tasks = [] ∧ b.store.fetch "g" "t" 0 = some 9) (by decide)
  exact ⟨b, hfetch, ((cache_agrees hreach hidle).2 "g" "t" 0).trans hfetch⟩

/-- The task of the later append wakes first: the cache is left with 5, and a restart answers 9. -/
theorem cache_disagrees : ∃ b, Reach storeStep (fun _ _ => True) init b ∧ b.tasks = [] ∧
    b.store.fetch "g" "t" 0 = some 5 ∧ lastOffset b.store.log ("g", "t", 0) = some 9 ∧
    (OffsetsStore.openStore b.store.log).fetch "g" "t" 0 = some 9 :=
  Reach.exists_of_runSteps storeStep (fun _ _ => True) init
    (racing ++ [.finish 1 true, .finish 0 true])
    (fun b => b.tasks = [] ∧ b.store.fetch "g" "t" 0 = some 5 ∧
      lastOffset b.store.log ("g", "t", 0) = some 9 ∧
      (OffsetsStore.openStore b.store.log).fetch "g" "t" 0 = some 9) (by decide)

end GroupBroker
end Replog.Groups

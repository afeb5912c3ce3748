import Mathlib.Data.List.Basic
import Mathlib.Data.List.Infix

/-!
# Readers of byte strings

A reader takes a value off the front of a byte string. Its law says that bytes behind
what it consumed make no difference, so a format whose encoder is undone by a reader is free of
prefixes.
-/

namespace Replog.Library

structure Reader (ε α : Type) where
  run : List UInt8 → Except ε (α × List UInt8)
  run_append : ∀ {bytes : List UInt8} {a : α} {rest : List UInt8},
    run bytes = .ok (a, rest) → ∀ more, run (bytes ++ more) = .ok (a, rest ++ more)

namespace Reader

variable {ε α β : Type}

def done (a : α) : Reader ε α where
  run bytes := .ok (a, bytes)
  run_append h more := by
    cases h
    rfl

def fail (e : ε) : Reader ε α where
  run _ := .error e
  run_append := nofun

/-- The outcome of a check on what was read. -/
def lift : Except ε α → Reader ε α
  | .ok a => done a
  | .error e => fail e

def andThen (r : Reader ε α) (f : α → Reader ε β) : Reader ε β where
  run bytes :=
    match r.run bytes with
    | .ok (a, rest) => (f a).run rest
    | .error e => .error e
  run_append {bytes b rest} h more := by
    cases hfirst : r.run bytes with
    | error e => simp [hfirst] at h
    | ok first =>
      simp only [hfirst] at h
      simp only [r.run_append hfirst more]
      exact (f first.1).run_append h more

instance : Monad (Reader ε) where
  pure := done
  bind := andThen

/-- The next `n` bytes. -/
def take (e : ε) (n : ℕ) : Reader ε (List UInt8) where
  run bytes := if bytes.length < n then .error e else .ok (bytes.take n, bytes.drop n)
  run_append {bytes a rest} h more := by
    split at h
    · cases h
    · rename_i hlen
      cases h
      rw [if_neg (by rw [List.length_append]; omega),
        List.take_append_of_le_length (by omega), List.drop_append_of_le_length (by omega)]

/-- The same reader `count` times. -/
def replicate (r : Reader ε α) : ℕ → Reader ε (List α)
  | 0 => pure []
  | count + 1 => do
    let a ← r
    let as ← replicate r count
    return a :: as

/-- In front of anything, the reader consumes exactly these bytes and returns this value. -/
def Reads (r : Reader ε α) (bytes : List UInt8) (a : α) : Prop :=
  ∀ rest, r.run (bytes ++ rest) = .ok (a, rest)

@[simp] theorem run_pure (a : α) (bytes : List UInt8) :
    (pure a : Reader ε α).run bytes = .ok (a, bytes) :=
  rfl

theorem run_bind_ok {r : Reader ε α} {bytes rest : List UInt8} {a : α}
    (h : r.run bytes = .ok (a, rest)) (f : α → Reader ε β) :
    (r >>= f).run bytes = (f a).run rest := by
  change (andThen r f).run bytes = _
  simp only [andThen, h]

/-- What a bound reader does behind bytes that its first part reads. -/
theorem Reads.run_bind {r : Reader ε α} {bytes : List UInt8} {a : α} (h : Reads r bytes a)
    (f : α → Reader ε β) (rest : List UInt8) :
    (r >>= f).run (bytes ++ rest) = (f a).run rest :=
  run_bind_ok (h rest) f

theorem Reads.pure (a : α) : Reads (Pure.pure a : Reader ε α) [] a := fun _ => rfl

theorem Reads.bind {r : Reader ε α} {f : α → Reader ε β} {bytes more : List UInt8} {a : α} {b : β}
    (h : Reads r bytes a) (h' : Reads (f a) more b) : Reads (r >>= f) (bytes ++ more) b := by
  intro rest
  rw [List.append_assoc, h.run_bind, h' rest]

/-- A last part whose value is only wrapped. -/
theorem Reads.bind_pure {r : Reader ε α} {f : α → β} {bytes : List UInt8} {a : α}
    (h : Reads r bytes a) : Reads (r >>= fun x => Pure.pure (f x)) bytes (f a) := by
  intro rest
  rw [h.run_bind, run_pure]

/-- A value that passes its check. -/
theorem Reads.bind_lift {r : Reader ε α} {check : α → Except ε β} {bytes : List UInt8} {a : α}
    {b : β} (h : Reads r bytes a) (hb : check a = .ok b) :
    Reads (r >>= fun x => lift (check x)) bytes b := by
  intro rest
  rw [h.run_bind, hb]
  rfl

theorem reads_take (e : ε) (bytes : List UInt8) : Reads (take e bytes.length) bytes bytes := by
  intro rest
  simp [take]

/-- A list is read back entry by entry. -/
theorem reads_replicate {r : Reader ε α} {write : α → List UInt8} {l : List α}
    (h : ∀ a ∈ l, Reads r (write a) a) : Reads (replicate r l.length) (l.flatMap write) l := by
  induction l with
  | nil => exact Reads.pure []
  | cons a l ih =>
    refine (h a (by simp)).bind ?_
    exact (ih fun b hb => h b (by simp [hb])).bind_pure

/-! ## What a reader accepts -/

theorem run_pure_eq_ok {a b : α} {bytes rest : List UInt8} :
    (pure a : Reader ε α).run bytes = .ok (b, rest) ↔ a = b ∧ bytes = rest := by
  rw [run_pure, Except.ok.injEq, Prod.mk.injEq]

theorem run_bind_eq_ok {r : Reader ε α} {f : α → Reader ε β} {bytes rest : List UInt8} {b : β} :
    (r >>= f).run bytes = .ok (b, rest) ↔
      ∃ a mid, r.run bytes = .ok (a, mid) ∧ (f a).run mid = .ok (b, rest) := by
  constructor
  · intro h
    change (andThen r f).run bytes = _ at h
    cases hfirst : r.run bytes with
    | error e => simp [andThen, hfirst] at h
    | ok first =>
      simp only [andThen, hfirst] at h
      exact ⟨first.1, first.2, rfl, h⟩
  · rintro ⟨a, mid, hfirst, h⟩
    rw [run_bind_ok hfirst, h]

theorem run_ite_eq_ok {p : Prop} [Decidable p] {r r' : Reader ε α} {bytes rest : List UInt8}
    {a : α} :
    (if p then r else r').run bytes = .ok (a, rest) ↔
      p ∧ r.run bytes = .ok (a, rest) ∨ ¬ p ∧ r'.run bytes = .ok (a, rest) := by
  by_cases hp : p
  · rw [if_pos hp]
    simp only [hp, true_and, not_true_eq_false, false_and, or_false]
  · rw [if_neg hp]
    simp only [hp, false_and, not_false_eq_true, true_and, false_or]

theorem run_lift_eq_ok {check : Except ε α} {bytes rest : List UInt8} {a : α} :
    (lift check).run bytes = .ok (a, rest) ↔ check = .ok a ∧ bytes = rest := by
  cases check with
  | error e => simp [lift, fail]
  | ok b =>
    change (pure b : Reader ε α).run bytes = _ ↔ _
    rw [run_pure_eq_ok, Except.ok.injEq]

theorem run_take_eq_ok {e : ε} {n : ℕ} {bytes l rest : List UInt8} :
    (take e n).run bytes = .ok (l, rest) ↔ l.length = n ∧ bytes = l ++ rest := by
  constructor
  · intro h
    rw [take] at h
    dsimp only at h
    split_ifs at h with hlen
    rw [Except.ok.injEq, Prod.mk.injEq] at h
    obtain ⟨rfl, rfl⟩ := h
    rw [List.length_take, List.take_append_drop]
    exact ⟨by omega, rfl⟩
  · rintro ⟨rfl, rfl⟩
    exact reads_take e l rest

/-- Entries that may be spelled in several ways, one choice for each. -/
theorem run_replicate_eq_ok {γ : Type} {r : Reader ε α} {ok : α → γ → Prop}
    {put : α → γ → List UInt8}
    (h : ∀ {bytes a rest}, r.run bytes = .ok (a, rest) ↔ ∃ c, ok a c ∧ bytes = put a c ++ rest)
    {count : ℕ} {bytes rest : List UInt8} {l : List α} :
    (replicate r count).run bytes = .ok (l, rest) ↔ l.length = count ∧
      ∃ cs, List.Forall₂ ok l cs ∧ bytes = (List.zipWith put l cs).flatten ++ rest := by
  induction count generalizing bytes l rest with
  | zero =>
    rw [replicate, run_pure_eq_ok]
    constructor
    · rintro ⟨rfl, rfl⟩
      exact ⟨rfl, [], .nil, rfl⟩
    · rintro ⟨hlen, cs, hcs, rfl⟩
      obtain rfl := List.eq_nil_of_length_eq_zero hlen
      cases hcs
      exact ⟨rfl, rfl⟩
  | succ count ih =>
    simp only [replicate, run_bind_eq_ok, run_pure_eq_ok, h, ih]
    constructor
    · rintro ⟨a, _, ⟨c, hc, rfl⟩, l, _, ⟨rfl, cs, hcs, rfl⟩, rfl, rfl⟩
      exact ⟨rfl, c :: cs, .cons hc hcs, by simp⟩
    · rintro ⟨hlen, cs, hcs, rfl⟩
      cases hcs with
      | nil => cases hlen
      | @cons a c l cs hc hcs =>
        exact ⟨a, _, ⟨c, hc, by simp⟩, l, rest, ⟨Nat.succ.inj hlen, cs, hcs, rfl⟩, rfl, rfl⟩

/-- Entries with one spelling each. -/
theorem run_replicate_eq_ok_flatMap {r : Reader ε α} {fits : α → Prop} {put : α → List UInt8}
    (h : ∀ {bytes a rest}, r.run bytes = .ok (a, rest) ↔ fits a ∧ bytes = put a ++ rest)
    {count : ℕ} {bytes rest : List UInt8} {l : List α} :
    (replicate r count).run bytes = .ok (l, rest) ↔
      l.length = count ∧ (∀ a ∈ l, fits a) ∧ bytes = l.flatMap put ++ rest := by
  induction count generalizing bytes l rest with
  | zero =>
    rw [replicate, run_pure_eq_ok]
    constructor
    · rintro ⟨rfl, rfl⟩
      exact ⟨rfl, nofun, rfl⟩
    · rintro ⟨hlen, -, rfl⟩
      obtain rfl := List.eq_nil_of_length_eq_zero hlen
      exact ⟨rfl, rfl⟩
  | succ count ih =>
    simp only [replicate, run_bind_eq_ok, run_pure_eq_ok, h, ih]
    constructor
    · rintro ⟨a, _, ⟨ha, rfl⟩, l, _, ⟨rfl, hl, rfl⟩, rfl, rfl⟩
      exact ⟨rfl, List.forall_mem_cons.mpr ⟨ha, hl⟩, by simp⟩
    · rintro ⟨hlen, hl, rfl⟩
      cases l with
      | nil => cases hlen
      | cons a l =>
        obtain ⟨ha, hl⟩ := List.forall_mem_cons.mp hl
        exact ⟨a, _, ⟨ha, by simp⟩, l, rest, ⟨Nat.succ.inj hlen, hl, rfl⟩, rfl, rfl⟩

/-- No reader that reads all of a byte string reads all of a strict prefix of it. -/
theorem run_isPrefix_ne {r : Reader ε α} {bytes p : List UInt8} {a b : α}
    (h : r.run bytes = .ok (a, [])) (hp : p <+: bytes) (hne : p ≠ bytes) :
    r.run p ≠ .ok (b, []) := by
  intro hread
  obtain ⟨more, rfl⟩ := hp
  have hlong := r.run_append hread more
  rw [h, List.nil_append] at hlong
  obtain ⟨-, rfl⟩ := Prod.mk.inj (Except.ok.inj hlong)
  exact hne (by simp)

end Reader
end Replog.Library

import Replog.Groups.Fencing

/-!
# Member ids over the restarts of a broker

The number that makes a member id new lives in memory, and so do the generations: a broker that
restarts counts from one again. Ids stay apart as long as no group gets a new member under the
same number in two incarnations of the broker.
-/

namespace Replog.Groups
open Replog.Library
open Replog.Proto (ErrorCode)

/-- A join that registered a new member, the `number`th of its incarnation. -/
structure Registration where
  incarnation : ℕ
  number : ℕ
  group : String
  memberId : String
  deriving DecidableEq

/-- The broker's coordinator, with the registrations of all incarnations, the latest first. -/
structure Incarnations where
  coordinator : GroupCoordinator
  incarnation : ℕ
  registrations : List Registration

inductive Incarnations.Action where
  | call (a : Groups.Action)
  | restart

/-- The join comes without the id of a member. -/
def GroupCoordinator.registers (c : GroupCoordinator) (group memberId : String) : Bool :=
  memberId = "" || memberId ∉ (c.group group).members

/-- The group and the id of a member that a call registers. -/
def GroupCoordinator.registered (c : GroupCoordinator) : Groups.Action → Option (String × String)
  | .join group memberId sessionTimeout topics counts now =>
    if c.registers group memberId then
      some (group, (c.join group memberId sessionTimeout topics counts now).1.memberId)
    else none
  | _ => none

namespace Incarnations

def init : Incarnations := { coordinator := .new, incarnation := 0, registrations := [] }

/-- The registrations of this incarnation. -/
def current (s : Incarnations) : List Registration :=
  s.registrations.filter (·.incarnation = s.incarnation)

def step (s : Incarnations) : Action → Option Incarnations
  | .call a =>
    some { s with
      coordinator := s.coordinator.call a
      registrations := (s.coordinator.registered a).toList.map (fun r =>
        { incarnation := s.incarnation, number := s.current.length + 1, group := r.1,
          memberId := r.2 }) ++ s.registrations }
  | .restart => some { s with coordinator := .new, incarnation := s.incarnation + 1 }

/-- No id is given to two members of a group. -/
def Unique (s : Incarnations) : Prop :=
  s.registrations.Pairwise fun r r' => r.group = r'.group → r.memberId ≠ r'.memberId

/-- What a member of an earlier incarnation holds gets it past no fence. -/
def Fenced (s : Incarnations) : Prop :=
  ∀ r ∈ s.registrations, r.incarnation < s.incarnation → ∀ generation now,
    (s.coordinator.heartbeat r.group r.memberId generation now).1 ≠ .none ∧
      s.coordinator.checkCommit r.group r.memberId generation ≠ .none

/-- No group has new members with one number in two incarnations. -/
def Apart (s : Incarnations) : Prop :=
  s.registrations.Pairwise fun r r' => r.group = r'.group → r.number = r'.number →
    r.incarnation = r'.incarnation

end Incarnations

/-! ## What a call does to the members -/

def memberName (n : ℕ) : String := s!"m-{n}"

theorem memberName_injective : Function.Injective memberName := by
  intro n n' heq
  have hlist := congrArg String.toList heq
  have hdigits : Nat.toDigits 10 n = Nat.toDigits 10 n' := by
    simpa [memberName, toString, Nat.toList_repr] using hlist
  have hvalue := congrArg (Nat.ofDigitChars 10 · 0) hdigits
  simpa only [Nat.ofDigitChars_ten_toDigits] using hvalue

theorem memberName_ne_empty (n : ℕ) : memberName n ≠ "" := by
  intro heq
  have hlist := congrArg String.toList heq
  simp [memberName] at hlist

namespace GroupCoordinator

variable {c : GroupCoordinator}

/-- A new member gets the next number, and everybody else keeps the id that was asked for. -/
theorem enroll_eq (c : GroupCoordinator) (group memberId : String) (topics : List String) :
    (c.registers group memberId = true ∧
        (c.enroll (c.group group) memberId topics).1 = memberName c.nextMember ∧
        (c.enroll (c.group group) memberId topics).2.2 = c.nextMember + 1) ∨
      (c.registers group memberId = false ∧ memberId ∈ (c.group group).members ∧
        (c.enroll (c.group group) memberId topics).1 = memberId ∧
        (c.enroll (c.group group) memberId topics).2.2 = c.nextMember) := by
  rw [registers, enroll]
  by_cases hempty : memberId = ""
  · exact .inl ⟨by simp [hempty], by rw [if_pos hempty]; rfl, by rw [if_pos hempty]⟩
  · rw [if_neg hempty]
    cases hlookup : (c.group group).members.lookup memberId with
    | none => exact .inl ⟨by simp [AList.lookup_eq_none.mp hlookup], rfl, rfl⟩
    | some m =>
      have hmem : memberId ∈ (c.group group).members := by
        rw [← AList.lookup_isSome, hlookup]
        rfl
      exact .inr ⟨by simp [hempty, hmem], hmem, rfl, rfl⟩

/-- The numbers that are handed out are the new members. -/
theorem nextMember_call (c : GroupCoordinator) (a : Action) :
    (c.call a).nextMember = c.nextMember + (c.registered a).toList.length := by
  cases a with
  | join group memberId sessionTimeout topics counts now =>
    have hnext : (c.call (.join group memberId sessionTimeout topics counts now)).nextMember =
        (c.enroll (c.group group) memberId topics).2.2 := rfl
    rw [hnext, registered]
    rcases c.enroll_eq group memberId topics with ⟨hnew, -, hnumber⟩ | ⟨hold, -, -, hnumber⟩
    · rw [hnumber, if_pos hnew]
      rfl
    · rw [hnumber, hold]
      rfl
  | heartbeat group memberId generation now =>
    rw [call, heartbeat]
    split
    · rfl
    · split <;> rfl
  | leave group memberId counts =>
    rw [call, leave]
    split
    · rfl
    · split <;> rfl
  | expire counts now => rfl

theorem registered_eq {a : Action} {r : String × String} (h : c.registered a = some r) :
    r.2 = memberName c.nextMember := by
  cases a with
  | join group memberId sessionTimeout topics counts now =>
    rw [registered] at h
    split at h
    · rename_i hnew
      cases h
      rcases c.enroll_eq group memberId topics with ⟨-, hid, -⟩ | ⟨hold, -⟩
      · exact hid
      · rw [hnew] at hold
        cases hold
    · cases h
  | heartbeat group memberId generation now => cases h
  | leave group memberId counts => cases h
  | expire counts now => cases h

private theorem mem_foldl_erase {ids : List String} {members : Assoc String Member} {id : String}
    (h : id ∈ ids.foldl (fun members id => members.erase id) members) : id ∈ members := by
  induction ids generalizing members with
  | nil => exact h
  | cons i ids ih => exact (AList.mem_erase.mp (ih h)).2

/-- Who is a member after a call was one before, or is the one it registers. -/
theorem mem_members_call {a : Action} {group id : String}
    (h : id ∈ ((c.call a).group group).members) :
    id ∈ (c.group group).members ∨ c.registered a = some (group, id) := by
  cases a with
  | join group' memberId sessionTimeout topics counts now =>
    let e := c.enroll (c.group group') memberId topics
    let members := (c.group group').members.insert e.1
      { topics, sessionTimeout, lastHeartbeat := now }
    let g := if e.2.1 then (c.group group').rebalance members counts
      else { c.group group' with members }
    have hgroup : (c.call (.join group' memberId sessionTimeout topics counts now)).group group =
        (c.setGroup group' g).group group := rfl
    have hmembers : g.members = members := by
      change Group.members (if e.2.1 then _ else _) = members
      split <;> rfl
    rw [hgroup, group_setGroup] at h
    split at h
    · rename_i heq
      subst heq
      rw [hmembers, AList.mem_insert] at h
      rcases h with rfl | h
      · rcases c.enroll_eq group memberId topics with ⟨hnew, -⟩ | ⟨-, hmem, hid, -⟩
        · right
          rw [registered, if_pos hnew]
          rfl
        · left
          have hsame : e.1 = memberId := hid
          rwa [hsame]
      · exact .inl h
    · exact .inl h
  | heartbeat group' memberId generation now =>
    left
    rw [call, heartbeat] at h
    split at h
    · exact h
    · rename_i g hg
      split at h
      · exact h
      · rename_i m hm
        dsimp only at h
        rw [group_setGroup] at h
        split at h
        · rename_i heq
          subst heq
          rw [AList.mem_insert] at h
          rw [group_of_lookup hg]
          rcases h with rfl | h
          · rw [← AList.lookup_isSome, hm]
            rfl
          · exact h
        · exact h
  | leave group' memberId counts =>
    left
    rw [call, leave] at h
    split at h
    · exact h
    · rename_i g hg
      split at h
      · exact h
      · dsimp only at h
        rw [group_setGroup] at h
        split at h
        · rename_i heq
          subst heq
          rw [group_of_lookup hg]
          exact (AList.mem_erase.mp h).2
        · exact h
  | expire counts now =>
    left
    rw [call, expire, GroupCoordinator.group, Assoc.lookup_mapVal] at h
    rw [GroupCoordinator.group]
    cases hlookup : c.groups.lookup group with
    | none =>
      rw [hlookup] at h
      exact h
    | some g =>
      rw [hlookup, Option.map_some, Option.getD_some, Group.expire] at h
      rw [Option.getD_some]
      split at h
      · exact h
      · exact mem_foldl_erase h

private theorem heartbeat_eq_none {group memberId : String} {generation now : ℕ}
    (h : (c.heartbeat group memberId generation now).1 = .none) :
    memberId ∈ (c.group group).members := by
  rw [heartbeat] at h
  split at h
  · cases h
  · rename_i g hg
    split at h
    · cases h
    · rename_i m hm
      rw [group_of_lookup hg, ← AList.lookup_isSome, hm]
      rfl

end GroupCoordinator

/-! ## Runs -/

namespace Incarnations

/-- Any call and any restart may come at any time. -/
def Free (_ : Incarnations) (_ : Action) : Prop := True

instance (s : Incarnations) (a : Action) : Decidable (Free s a) :=
  inferInstanceAs (Decidable True)

structure Inv (s : Incarnations) : Prop where
  named : ∀ r ∈ s.registrations, r.memberId = memberName r.number
  past : ∀ r ∈ s.registrations, r.incarnation ≤ s.incarnation
  next : s.coordinator.nextMember = s.current.length + 1
  numbers : ∀ r ∈ s.current, r.number ≤ s.current.length
  distinct : s.registrations.Pairwise fun r r' =>
    r.incarnation = r'.incarnation → r.number ≠ r'.number
  members : ∀ group id, id ∈ (s.coordinator.group group).members →
    ∃ r ∈ s.registrations, r.incarnation = s.incarnation ∧ r.group = group ∧ r.memberId = id

private theorem mem_current {s : Incarnations} {r : Registration} :
    r ∈ s.current ↔ r ∈ s.registrations ∧ r.incarnation = s.incarnation := by
  rw [current, List.mem_filter, decide_eq_true_eq]

theorem inv_init : init.Inv where
  named := nofun
  past := nofun
  next := rfl
  numbers := nofun
  distinct := .nil
  members group id h := by simp [init, GroupCoordinator.new, GroupCoordinator.group,
    Group.default] at h

variable {s s' : Incarnations}

theorem Inv.call (h : s.Inv) (a : Groups.Action) (hstep : s.step (.call a) = some s') : s'.Inv := by
  have hnext := s.coordinator.nextMember_call a
  have hmembers : ∀ group id, id ∈ ((s.coordinator.call a).group group).members →
      id ∈ (s.coordinator.group group).members ∨
        s.coordinator.registered a = some (group, id) := fun group id hid =>
    GroupCoordinator.mem_members_call hid
  cases hnew : s.coordinator.registered a with
  | none =>
    have hs' : s' = { s with coordinator := s.coordinator.call a } := by
      simp only [step, hnew] at hstep
      exact (Option.some.inj hstep).symm
    subst hs'
    refine ⟨h.named, h.past, ?_, h.numbers, h.distinct, fun group id hid => ?_⟩
    · rw [hnew] at hnext
      exact hnext.trans h.next
    · rcases hmembers group id hid with hid | hid
      · exact h.members group id hid
      · rw [hnew] at hid
        cases hid
  | some new =>
    obtain ⟨group, memberId⟩ := new
    let r : Registration := { incarnation := s.incarnation, number := s.current.length + 1,
                              group, memberId }
    have hs' : s' = { s with
        coordinator := s.coordinator.call a, registrations := r :: s.registrations } := by
      simp only [step, hnew] at hstep
      exact (Option.some.inj hstep).symm
    have hcurrent : s'.current = r :: s.current := by
      rw [hs']
      exact List.filter_cons_of_pos (decide_eq_true rfl)
    have hname : memberId = memberName (s.current.length + 1) :=
      (GroupCoordinator.registered_eq hnew).trans (congrArg memberName h.next)
    refine ⟨?_, ?_, ?_, ?_, ?_, ?_⟩
    · rw [hs']
      exact List.forall_mem_cons.mpr ⟨hname, h.named⟩
    · rw [hs']
      exact List.forall_mem_cons.mpr ⟨le_rfl, h.past⟩
    · rw [hcurrent, hs']
      rw [hnew, h.next] at hnext
      exact hnext
    · rw [hcurrent]
      refine List.forall_mem_cons.mpr ⟨le_rfl, fun r' hr' => ?_⟩
      exact (h.numbers r' hr').trans (Nat.le_succ _)
    · rw [hs']
      refine List.pairwise_cons.mpr ⟨fun r' hr' hsame heq => ?_, h.distinct⟩
      -- the numbers of this incarnation are used up to its count
      have hle := h.numbers r' (mem_current.mpr ⟨hr', hsame.symm⟩)
      have heq : s.current.length + 1 = r'.number := heq
      omega
    · rw [hs']
      intro group' id hid
      rcases hmembers group' id hid with hid | hid
      · obtain ⟨r', hr', hr'eq⟩ := h.members group' id hid
        exact ⟨r', List.mem_cons_of_mem _ hr', hr'eq⟩
      · rw [hnew] at hid
        cases hid
        exact ⟨r, List.mem_cons_self, rfl, rfl, rfl⟩

theorem Inv.restart (h : s.Inv) (hstep : s.step .restart = some s') : s'.Inv := by
  cases hstep
  have hcurrent : Incarnations.current
      { s with coordinator := .new, incarnation := s.incarnation + 1 } = [] := by
    refine List.filter_eq_nil_iff.mpr fun r hr => ?_
    have := h.past r hr
    simp only [decide_eq_true_eq]
    omega
  refine ⟨h.named, fun r hr => (h.past r hr).trans (Nat.le_succ _), ?_, ?_, h.distinct, ?_⟩
  · rw [hcurrent]
    rfl
  · rw [hcurrent]
    exact nofun
  · intro group id hid
    exact absurd hid (by simp [GroupCoordinator.new, GroupCoordinator.group, Group.default])

theorem inv_of_reach (h : Reach step Free init s) : s.Inv :=
  h.invariant inv_init fun _ a _ hs _ hstep => by
    cases a with
    | call a => exact hs.call a hstep
    | restart => exact hs.restart hstep

theorem Inv.unique_iff (h : s.Inv) : s.Unique ↔ s.Apart := by
  have hname : ∀ r ∈ s.registrations, ∀ r' ∈ s.registrations,
      r.memberId = r'.memberId ↔ r.number = r'.number := by
    intro r hr r' hr'
    rw [h.named r hr, h.named r' hr']
    exact memberName_injective.eq_iff
  constructor
  · intro hunique
    refine hunique.imp_of_mem fun {r r'} hr hr' hne hgroup hnumber => ?_
    exact absurd ((hname r hr r' hr').mpr hnumber) (hne hgroup)
  · intro hapart
    refine (hapart.and h.distinct).imp_of_mem fun {r r'} hr hr' hboth hgroup hid => ?_
    have hnumber := (hname r hr r' hr').mp hid
    exact hboth.2 (hboth.1 hgroup hnumber) hnumber

theorem Inv.fenced (h : s.Inv) (hunique : s.Unique) : s.Fenced := by
  intro r hr hpast generation now
  -- whoever is a member now was registered in this incarnation
  have hgone : r.memberId ∉ (s.coordinator.group r.group).members := by
    intro hmem
    obtain ⟨r', hr', hnow, hgroup, hid⟩ := h.members _ _ hmem
    have hsymm : Std.Symm fun r r' : Registration => r.group = r'.group → r.memberId ≠ r'.memberId :=
      ⟨fun _ _ hne heq => (hne heq.symm).symm⟩
    have hne : r' ≠ r := by
      rintro rfl
      omega
    exact hunique.forall hr' hr hne hgroup hid
  constructor
  · exact fun hok => hgone (GroupCoordinator.heartbeat_eq_none hok)
  · intro hok
    have hnamed : r.memberId ≠ "" := h.named r hr ▸ memberName_ne_empty _
    exact hgone (GroupCoordinator.checkCommit_eq_none hok hnamed).1

/-- Member ids are unique over all incarnations, and no fence lets anything of an earlier one
through, exactly if no group gets new members with one number in two incarnations. -/
theorem members_apart (h : Reach step Free init s) : s.Unique ∧ s.Fenced ↔ s.Apart := by
  have hinv := inv_of_reach h
  constructor
  · exact fun hboth => hinv.unique_iff.mp hboth.1
  · intro hapart
    have hunique := hinv.unique_iff.mpr hapart
    exact ⟨hunique, hinv.fenced hunique⟩

/-- A join of a group with one topic of one partition. -/
def joining (group : String) : Action := .call (.join group "" 10 ["t"] (fun _ => some 1) 0)

theorem members_apart_groups : ∃ s : Incarnations,
    s.registrations = [⟨1, 2, "g", "m-2"⟩, ⟨1, 1, "h", "m-1"⟩, ⟨0, 1, "g", "m-1"⟩] ∧
      s.Unique ∧ s.Fenced := by
  obtain ⟨s, hreach, hs⟩ := Reach.exists_of_runSteps step Free init
    [joining "g", .restart, joining "h", joining "g"]
    (fun s => s.registrations = [⟨1, 2, "g", "m-2"⟩, ⟨1, 1, "h", "m-1"⟩, ⟨0, 1, "g", "m-1"⟩])
    (by decide)
  refine ⟨s, hs, (members_apart hreach).mpr ?_⟩
  rw [Apart, hs]
  decide

/-- The first member after a restart has the id and the generation of the first one before it, and
a commit of the old one passes for the new one. -/
theorem members_confused : ∃ s, Reach step Free init s ∧
    s.registrations = [⟨1, 1, "g", "m-1"⟩, ⟨0, 1, "g", "m-1"⟩] ∧
    s.coordinator.checkCommit "g" "m-1" 1 = .none ∧ ¬ (s.Unique ∧ s.Fenced) := by
  obtain ⟨s, hreach, hs, hcheck⟩ := Reach.exists_of_runSteps step Free init
    [joining "g", .restart, joining "g"]
    (fun s => s.registrations = [⟨1, 1, "g", "m-1"⟩, ⟨0, 1, "g", "m-1"⟩] ∧
      s.coordinator.checkCommit "g" "m-1" 1 = .none) (by decide)
  refine ⟨s, hreach, hs, hcheck, fun hboth => ?_⟩
  have hunique := hboth.1
  rw [Unique, hs] at hunique
  exact absurd hunique (by decide)

end Incarnations
end Replog.Groups

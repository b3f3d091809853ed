import FragmentPipe.Proofs.Direct.Transparent
import FragmentPipe.Proofs.Runs

set_option autoImplicit false

/-!
# Pipes that cannot be told apart

Two networks are indistinct if every list of steps gives the same replies on both and leaves the
same to be observed of each pipe. Two pipes are interchangeable if either can stand for the other
anywhere in a network. A relation between pipes that gives equal replies and is kept by every action
is a bisimulation; pipes that it relates are interchangeable.
-/
namespace FragmentPipe

namespace Network

/-- Neither a reply nor anything that can be observed tells the networks apart. -/
def Indistinct (n m : Network) : Prop :=
  ∀ steps, (replay step n steps).1 = (replay step m steps).1 ∧
    ∀ i, (replay step n steps).2.snapshot? i = (replay step m steps).2.snapshot? i

end Network

namespace Pipe

/-- Whatever else is in a network, and wherever in it one of the pipes stands, the other can stand
in its place. -/
def Interchangeable (p q : Pipe) : Prop :=
  ∀ (pipes : Array Pipe) (i : Nat),
    Network.Indistinct ⟨pipes.setIfInBounds i p⟩ ⟨pipes.setIfInBounds i q⟩

structure Matches (R : Pipe → Pipe → Prop) {α : Type} (a b : α × Pipe) : Prop where
  reply : a.1 = b.1
  pipes : R a.2 b.2

structure Bisimulation (R : Pipe → Pipe → Prop) : Prop where
  refl : ∀ p, R p p
  act : ∀ {p q}, R p q → ∀ action, Matches R (p.act action) (q.act action)
  source : ∀ {p q}, R p q → ∀ r : Pipe, r.relayFrom p = r.relayFrom q
  ask : ∀ {p q}, R p q → ∀ query, p.ask query = q.ask query
  snapshot : ∀ {p q}, R p q → p.snapshot = q.snapshot

theorem Matches.replying {R : Pipe → Pipe → Prop} {α : Type} {a b : Except Fault α × Pipe}
    (h : Matches R a b) (reply : α → Reply) :
    Matches R (Pipe.replying reply a) (Pipe.replying reply b) :=
  ⟨congrArg (Except.map reply) h.reply, h.pipes⟩

end Pipe

namespace Network

open Pipe (Bisimulation Matches)

def Related (R : Pipe → Pipe → Prop) (n m : Network) : Prop :=
  ∀ i : Nat, Option.Rel R n.pipes[i]? m.pipes[i]?

section Related

variable {R : Pipe → Pipe → Prop} {n m : Network}

theorem Related.lt_size_iff (h : Related R n m) (i : Nat) :
    i < n.pipes.size ↔ i < m.pipes.size := by
  have hplace := h i
  rw [← Nat.not_le, ← Nat.not_le, ← Array.getElem?_eq_none_iff, ← Array.getElem?_eq_none_iff]
  generalize n.pipes[i]? = found at hplace
  generalize m.pipes[i]? = found' at hplace
  cases hplace <;> simp

theorem Related.set (h : Related R n m) {p q : Pipe} (hpq : R p q) (i : Nat) :
    Related R ⟨n.pipes.setIfInBounds i p⟩ ⟨m.pipes.setIfInBounds i q⟩ := by
  intro j
  simp only [Array.getElem?_setIfInBounds]
  split
  · simp only [h.lt_size_iff i]
    split
    · exact .some hpq
    · exact .none
  · exact h j

theorem Related.of_eq (hR : Bisimulation R) (n : Network) : Related R n n := by
  intro i
  cases n.pipes[i]? with
  | none => exact .none
  | some p => exact .some (hR.refl p)

theorem Related.step (hR : Bisimulation R) (h : Related R n m) (s : Step) :
    (n.step s).1 = (m.step s).1 ∧ Related R (n.step s).2 (m.step s).2 := by
  unfold Network.step
  cases s with
  | command i command =>
    have hplace := h i
    simp only
    generalize n.pipes[i]? = found at hplace
    generalize m.pipes[i]? = found' at hplace
    cases hplace with
    | none => exact ⟨rfl, h⟩
    | some hpq =>
      have hact := hR.act hpq (.run command)
      exact ⟨hact.reply, h.set hact.pipes i⟩
  | query i query =>
    have hplace := h i
    simp only
    generalize n.pipes[i]? = found at hplace
    generalize m.pipes[i]? = found' at hplace
    cases hplace with
    | none => exact ⟨rfl, h⟩
    | some hpq => exact ⟨hR.ask hpq query, h⟩
  | relay source target =>
    have hsource := h source
    have htarget := h target
    simp only
    generalize n.pipes[source]? = origin at hsource
    generalize m.pipes[source]? = origin' at hsource
    generalize n.pipes[target]? = found at htarget
    generalize m.pipes[target]? = found' at htarget
    cases hsource with
    | none => exact ⟨rfl, h⟩
    | @some first _ horigin =>
      cases htarget with
      | none => exact ⟨rfl, h⟩
      | some hpq =>
        simp only
        split
        · have hact := hR.act hpq .relayWithin
          exact ⟨hact.reply, h.set hact.pipes target⟩
        · rw [← hR.source horigin]
          have hact := hR.act hpq (.relayFrom first)
          exact ⟨hact.reply, h.set hact.pipes target⟩
  | join producer consumer =>
    simp only
    split <;> exact ⟨rfl, h⟩

theorem Related.replay (hR : Bisimulation R) (h : Related R n m) (steps : List Step) :
    (Network.replay Network.step n steps).1 = (Network.replay Network.step m steps).1 ∧
      Related R (Network.replay Network.step n steps).2
        (Network.replay Network.step m steps).2 := by
  induction steps generalizing n m with
  | nil => exact ⟨rfl, h⟩
  | cons s rest ih =>
    obtain ⟨hreply, hnext⟩ := h.step hR s
    obtain ⟨hreplies, hlast⟩ := ih hnext
    unfold Network.replay
    simp only
    exact ⟨by rw [hreply, hreplies], hlast⟩

theorem Related.snapshot? (hR : Bisimulation R) (h : Related R n m) (i : Nat) :
    n.snapshot? i = m.snapshot? i := by
  have hplace := h i
  unfold Network.snapshot?
  generalize n.pipes[i]? = found at hplace
  generalize m.pipes[i]? = found' at hplace
  cases hplace with
  | none => rfl
  | some hpq => exact congrArg some (hR.snapshot hpq)

theorem Related.indistinct (hR : Bisimulation R) (h : Related R n m) : n.Indistinct m := by
  intro steps
  obtain ⟨hreplies, hlast⟩ := h.replay hR steps
  exact ⟨hreplies, fun i => hlast.snapshot? hR i⟩

end Related

end Network

theorem Network.Indistinct.step {n m : Network} (h : n.Indistinct m) (s : Step) :
    (n.step s).1 = (m.step s).1 ∧ (n.step s).2.Indistinct (m.step s).2 := by
  have hcons : ∀ steps,
      (n.step s).1 :: (replay Network.step (n.step s).2 steps).1 =
        (m.step s).1 :: (replay Network.step (m.step s).2 steps).1 :=
    fun steps => (h (s :: steps)).1
  exact ⟨(List.cons.inj (hcons [])).1,
    fun steps => ⟨(List.cons.inj (hcons steps)).2, (h (s :: steps)).2⟩⟩

namespace Pipe

section Interchangeable

variable {p q : Pipe}

/-- Pipes that a bisimulation relates are interchangeable. -/
theorem Bisimulation.interchangeable {R : Pipe → Pipe → Prop} (hR : Bisimulation R)
    (h : R p q) : p.Interchangeable q := by
  intro pipes i
  exact ((Network.Related.of_eq hR ⟨pipes⟩).set h i).indistinct hR

theorem Interchangeable.ask (h : p.Interchangeable q) (query : Query) :
    p.ask query = q.ask query :=
  ((h #[p] 0).step (.query 0 query)).1

theorem Interchangeable.run (h : p.Interchangeable q) (command : Command) :
    (p.run command).2.Interchangeable (q.run command).2 := by
  intro pipes i
  by_cases hinside : i < pipes.size
  · have hstep : ∀ r : Pipe, (Network.step ⟨pipes.setIfInBounds i r⟩ (.command i command)).2 =
        ⟨pipes.setIfInBounds i (r.run command).2⟩ := by
      intro r
      simp [Network.step, hinside]
    rw [← hstep, ← hstep]
    exact ((h pipes i).step (.command i command)).2
  · have hsame : ∀ r : Pipe, pipes.setIfInBounds i r = pipes :=
      fun r => Array.setIfInBounds_eq_of_size_le (Nat.le_of_not_lt hinside)
    rw [hsame, hsame]
    exact fun steps => ⟨rfl, fun _ => rfl⟩

end Interchangeable

end Pipe

end FragmentPipe

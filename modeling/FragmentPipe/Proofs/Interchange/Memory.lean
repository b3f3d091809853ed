import FragmentPipe.Proofs.Interchange.Bisimulation
import FragmentPipe.Proofs.Refusals

set_option autoImplicit false

namespace FragmentPipe

namespace Pipe

structure Coherent (p : Pipe) : Prop where
  measured : p.schema.Measured
  follows : p.consumer.Follows p.schema
  ordered : p.Ordered

section Coherence

variable {p q : Pipe}

theorem Reachable.coherent {schema : Schema} {config : Config} (h : Reachable schema config p)
    (hs : schema.Accepted) : p.Coherent := by
  obtain ⟨rfl, hfollows⟩ := h.follows hs.compiled
  exact ⟨h.measured hs, hfollows, h.ordered hs⟩

theorem Coherent.act (h : p.Coherent) (action : Action) : (p.act action).2.Coherent := by
  obtain ⟨hschema, hfollows⟩ := follows_act h.measured.laidOut h.follows action
  exact ⟨hschema ▸ h.measured, hschema ▸ hfollows,
    ordered_act h.measured h.follows h.ordered action⟩

theorem Coherent.withRing (h : p.Coherent) {r : Ring} (hhead : r.head = p.ring.head)
    (htail : r.tail = p.ring.tail) (hcapacity : r.capacity = p.ring.capacity) :
    Coherent { p with ring := r } :=
  ⟨h.measured, h.follows, h.ordered.withRing hhead htail hcapacity⟩

end Coherence

def actAll (p : Pipe) (actions : List Action) : Pipe :=
  actions.foldl (fun p action => (p.act action).2) p

/-- The same pipe, or the same but for what the halves of two coherent pipes remember. -/
def Recalls (p q : Pipe) : Prop := p = q ∨ p.Coherent ∧ q.Coherent ∧ p.forget = q.forget

section Recalling

variable {p q : Pipe}

/-- What one action comes to depends on memory in memory alone. -/
theorem forgetting_act (hp : p.Ordered) (hq : q.Ordered) (h : p.forget = q.forget)
    (action : Action) : forgetting (p.act action) = forgetting (q.act action) := by
  cases action with
  | run command =>
    calc forgetting (p.act (.run command))
      _ = Direct.run p.forget command := (run_forget hp command).symm
      _ = Direct.run q.forget command := by rw [h]
      _ = forgetting (q.act (.run command)) := run_forget hq command
  | relayFrom source =>
    have hrelay : forgetting (p.relayFrom source) = forgetting (q.relayFrom source) := by
      rw [← relayFrom_forget hp, ← relayFrom_forget hq, h]
    exact congrArg (replying .flag) hrelay
  | relayWithin =>
    have hrelay : forgetting p.relayWithin = forgetting q.relayWithin := by
      rw [← relayWithin_forget hp, ← relayWithin_forget hq, h]
    exact congrArg (replying .flag) hrelay

theorem Recalls.act (h : p.Recalls q) (action : Action) :
    Matches Recalls (p.act action) (q.act action) := by
  rcases h with rfl | ⟨hp, hq, hforget⟩
  · exact ⟨rfl, .inl rfl⟩
  · obtain ⟨hreply, hpipes⟩ :=
      Prod.mk.inj (forgetting_act hp.ordered hq.ordered hforget action)
    exact ⟨hreply, .inr ⟨hp.act action, hq.act action, hpipes⟩⟩

theorem Recalls.forget_eq (h : p.Recalls q) : p.forget = q.forget := by
  rcases h with rfl | ⟨-, -, hforget⟩
  · rfl
  · exact hforget

theorem bisimulation_recalls : Bisimulation Recalls where
  refl := fun p => .inl rfl
  act := Recalls.act
  source := by
    intro p q h r
    calc r.relayFrom p
      _ = r.relayFrom p.forget := rfl
      _ = r.relayFrom q.forget := by rw [h.forget_eq]
      _ = r.relayFrom q := rfl
  ask := by
    intro p q h query
    rw [← p.ask_forget, ← q.ask_forget, h.forget_eq]
  snapshot := by
    intro p q h
    calc p.snapshot
      _ = p.forget.snapshot := rfl
      _ = q.forget.snapshot := by rw [h.forget_eq]
      _ = q.snapshot := rfl

theorem Recalls.actAll (h : p.Recalls q) (actions : List Action) :
    (p.actAll actions).Recalls (q.actAll actions) := by
  induction actions generalizing p q with
  | nil => exact h
  | cons action rest ih => exact ih (h.act action).pipes

theorem Recalls.interchangeable (h : p.Recalls q) : p.Interchangeable q :=
  bisimulation_recalls.interchangeable h

/-- An action that is refused might as well not have been taken. -/
theorem Refuses.recalls (hp : p.Coherent) {action : Action} (h : p.Refuses action)
    (hne : action ≠ .run .publishMarker) : (p.act action).2.Recalls p := by
  refine .inr ⟨hp.act action, hp, ?_⟩
  rcases h.idles hp.measured.laidOut hp.follows hne with ⟨seen, hidle⟩ | ⟨seen, -, hidle⟩ <;>
    rw [hidle] <;> rfl

end Recalling

end Pipe

end FragmentPipe

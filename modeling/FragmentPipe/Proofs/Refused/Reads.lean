import FragmentPipe.Proofs.Interchange.Memory

set_option autoImplicit false

namespace FragmentPipe

namespace Pipe

variable {p : Pipe} {action : Action}

/-- In every state of every run, with any words and bytes in the ring, an attempt of the reader that
finds nothing or fails leaves the ring and the producer as they are, and of the consumer changes at
most the head it has seen. Whatever actions follow, the attempt then comes to the same as if it had
not been made before, and nothing that is observed later shows that it was. -/
theorem attempts_atomic {schema : Schema} {config : Config} (h : Reachable schema config p)
    (hs : schema.Accepted) {r : Ring} (hhead : r.head = p.ring.head) (htail : r.tail = p.ring.tail)
    (hcapacity : r.capacity = p.ring.capacity) (hattempt : action.isAttempt = true)
    (hrefused : Refuses { p with ring := r } action) :
    let before : Pipe := { p with ring := r }
    let after := (before.act action).2
    (∃ seen, after = { before with consumer := { before.consumer with seenHead := seen } }) ∧
      (∀ actions,
        ((after.actAll actions).act action).1 = ((before.actAll actions).act action).1 ∧
        ((after.actAll actions).act action).2.forget =
          ((before.actAll actions).act action).2.forget) ∧
      after.Interchangeable before := by
  intro before after
  have hcoherent : before.Coherent := (h.coherent hs).withRing hhead htail hcapacity
  have hne : action ≠ .run .publishMarker := by
    rintro rfl
    cases hattempt
  have hrecalls : after.Recalls before := hrefused.recalls hcoherent hne
  refine ⟨?_, fun actions => ?_, hrecalls.interchangeable⟩
  · obtain ⟨seen, -, hunmoved⟩ :=
      hrefused.unmoved hcoherent.measured.laidOut hcoherent.follows hattempt
    exact ⟨seen, hunmoved⟩
  · have hagain := (hrecalls.actAll actions).act action
    exact ⟨hagain.reply, hagain.pipes.forget_eq⟩

/-- A message is published, and then a word that is no template id stands in the place of its id. -/
theorem attempts_atomic_book :
    ∃ p, Reachable Schema.book ⟨⟨4, 3⟩, 1⟩ p ∧
      let torn : Pipe := { p with ring := p.ring.setWord 0 77 }
      torn.Refuses (.run .read) ∧ torn.ring.head ≠ torn.ring.tail ∧
        (∃ seen, (torn.act (.run .read)).2 =
          { torn with consumer := { torn.consumer with seenHead := seen } }) ∧
        (torn.act (.run .read)).2.Interchangeable torn := by
  have haccepted : Schema.book.Accepted :=
    ⟨Schema.compiled_book, by decide, by decide, by decide⟩
  have hbuilt : Reachable Schema.book ⟨⟨4, 3⟩, 1⟩ (fresh Schema.book ⟨⟨4, 3⟩, 1⟩) :=
    .built (build_eq_fresh (by decide +kernel))
  have hrun := (hbuilt.act (.run (.openAt 0 0))).act (.run .publish)
  refine ⟨_, hrun, ?_⟩
  intro torn
  have hcorrupt : ((torn.act (.run .read)).1).isOk = false := by decide +kernel
  have hrefused : torn.Refuses (.run .read) := by
    right
    cases hread : (torn.act (.run .read)).1 with
    | ok reply =>
      rw [hread] at hcorrupt
      cases hcorrupt
    | error fault => exact ⟨fault, rfl⟩
  obtain ⟨hunmoved, -, hsame⟩ := attempts_atomic hrun haccepted (r := torn.ring) rfl rfl
    (Ring.capacity_setWord _ _ _) rfl hrefused
  exact ⟨hrefused, by decide +kernel, hunmoved, hsame⟩

end Pipe

end FragmentPipe

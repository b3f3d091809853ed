import FragmentPipe.Proofs.Interchange.Memory
import FragmentPipe.Proofs.Reader.Releases
import FragmentPipe.Proofs.Reader.Visible

set_option autoImplicit false

namespace FragmentPipe

namespace Pipe

/-- Bytes are left behind with words only: where the tails are level in words they are so in bytes,
and a prepared fragment with bytes has words. -/
structure Levels (p : Pipe) : Prop where
  level : p.ring.tail.words = p.consumer.tail.words → p.ring.tail = p.consumer.tail
  counted : p.consumer.fragmentBytes ≠ 0 → p.consumer.tail.words < p.consumer.next

section Steps

variable {p q : Pipe}

theorem Levels.lingers (h : p.Levels) (hq : p.Lingers q) : q.Levels := by
  refine ⟨?_, ?_⟩
  · rw [hq.released, hq.tail]
    exact h.level
  · rw [hq.tail, hq.next, hq.fragmentBytes]
    exact h.counted

/-- Where nothing is released the tails are level afterwards only if no word was left behind, and
then no byte was. -/
theorem Levels.leaves (h : p.Levels) (hordered : p.Ordered) {words : Nat} (hq : p.Leaves words q)
    (hring : q.ring.tail = p.ring.tail) (hlevel : q.ring.tail.words = q.consumer.tail.words) :
    q.ring.tail = q.consumer.tail := by
  have hreleased := hordered.released.1
  have hprepared := hordered.prepared
  rw [hring, hq] at hlevel ⊢
  simp only at hlevel
  have hsame : p.ring.tail.words = p.consumer.tail.words := by omega
  have hnext : p.consumer.next + words = p.consumer.tail.words := by omega
  have hbytes : p.consumer.fragmentBytes = 0 := by
    refine Decidable.byContradiction fun hne => ?_
    have hlt := h.counted hne
    omega
  rw [h.level hsame, hnext, hbytes]
  rfl

theorem Levels.begun (h : p.Levels) (hordered : p.Ordered) {item : ReadItem} {bytes : Nat}
    (hbegun : p.Begun p.consumer.next item bytes q) (hwords : 0 < item.words p.schema) :
    q.Levels := by
  obtain ⟨tail, htail, hring⟩ := hbegun.ring
  have hend : q.ring.tail = tail := by rw [hring]
  refine ⟨fun hlevel => ?_, fun _ => ?_⟩
  · rcases htail with rfl | rfl
    · have hleaves : p.Leaves 0 q := hbegun.tail
      exact h.leaves hordered hleaves hend hlevel
    · exact hend
  · rw [hbegun.tail, hbegun.next]
    simp only
    omega

theorem Levels.release (h : p.Levels) : p.release.Levels := ⟨fun _ => rfl, h.counted⟩

theorem Levels.act (h : p.Levels) (hp : p.Coherent) (action : Action) :
    (p.act action).2.Levels := by
  by_cases hreset : action = .run .reset
  · subst hreset
    exact ⟨fun _ => rfl, fun hbytes => absurd rfl hbytes⟩
  have hdeals := p.deals_act hreset
  generalize p.act action = result at hdeals ⊢
  cases hdeals with
  | lingers _ hlingers => exact h.lingers hlingers
  | skips _ hkeeps hleaves hbytes =>
    exact ⟨h.leaves hp.ordered hleaves hkeeps.released, fun hne => absurd hbytes hne⟩
  | releases _ _ => exact h.release
  | @reads item bytes q _ hitem hprepares =>
    have hsits : item.Sits p.schema p.consumer.sequences.frames := by
      rcases hitem with hitem | hitem
      · exact ReadItem.sits_of_announces hp.measured.laidOut hitem _
      · exact ReadItem.sits_of_continues hp.follows hitem
    exact h.begun hp.ordered hprepares.begun (hsits.words_pos hp.measured)

theorem Levels.releaseNow (h : p.Levels) :
    ∃ count, p.releaseNow =
      { p with
        ring := { p.ring with tail := p.consumer.tail }
        consumer := { p.consumer with
          batchCountdown := p.consumer.batchRelease
          releaseCount := count } } := by
  rcases p.releaseNow_cases with ⟨hcountdown, hwords, hnothing⟩ | hrelease
  · refine ⟨p.consumer.releaseCount, ?_⟩
    rw [hnothing, ← h.level hwords, ← hcountdown]
  · exact ⟨p.consumer.releaseCount + 1, hrelease⟩

end Steps

end Pipe

end FragmentPipe

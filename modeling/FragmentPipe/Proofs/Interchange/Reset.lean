import FragmentPipe.Proofs.Interchange.Leftovers
import FragmentPipe.Proofs.Reader.Batches
import FragmentPipe.Proofs.Refusals
import FragmentPipe.Proofs.Writer.Room

set_option autoImplicit false

namespace FragmentPipe

theorem Channel.erase_eq_blank {α : Type} {c : Channel α} {bits : Nat}
    (h : c.capacity = 1 <<< bits) (fill : α) : c.erase fill = blank bits fill := by
  have hsize : c.cells.size = 1 <<< bits := h
  simp only [erase, blank, hsize]

theorem Ring.clear_eq_blank {r : Ring} {size : RingSize}
    (h : r.capacity = ⟨size.wordCapacity, size.byteCapacity⟩) :
    r.clear = blank size.wordBits size.byteBits := by
  obtain ⟨hwords, hbytes⟩ := Mark.mk.inj h
  unfold clear blank
  rw [Channel.erase_eq_blank hwords, Channel.erase_eq_blank hbytes]

namespace Pipe

structure KeepsBuild (p q : Pipe) : Prop where
  config : q.config = p.config
  capacity : q.ring.capacity = p.ring.capacity
  slots : q.producer.starts.size = p.producer.starts.size
  batchRelease : q.consumer.batchRelease = p.consumer.batchRelease

section Keeping

variable {p q : Pipe}

theorem keepsBuild_refl (p : Pipe) : p.KeepsBuild p := ⟨rfl, rfl, rfl, rfl⟩

theorem Unmoved.keepsBuild (h : p.Unmoved q) : p.KeepsBuild q := by
  obtain ⟨seen, -, rfl⟩ := h
  exact ⟨rfl, rfl, rfl, rfl⟩

theorem Attempt.keepsBuild {expected : ReadItem → Prop} {result : Except Fault Bool × Pipe}
    (h : p.Attempt expected result) : p.KeepsBuild result.2 := by
  cases h with
  | moved _ hprepares hmoved _ =>
    obtain ⟨tail, -, hring⟩ := hmoved.ring
    refine ⟨hmoved.config, ?_, by rw [hmoved.producer], hprepares.batches.batchRelease⟩
    rw [hring]
    rfl
  | nothing hunmoved _ | corrupt hunmoved _ => exact hunmoved.keepsBuild

theorem keepsBuild_skip (p : Pipe) (words : Nat) : p.KeepsBuild (p.skip words).2 := by
  obtain ⟨q, ⟨seen, -, rfl⟩, ⟨-, hskip⟩ | ⟨cause, hskip⟩⟩ := p.skip_cases words <;>
    rw [hskip] <;> exact ⟨rfl, rfl, rfl, rfl⟩

theorem keepsBuild_releaseNow (p : Pipe) : p.KeepsBuild p.releaseNow := by
  unfold releaseNow release
  split <;> exact ⟨rfl, rfl, rfl, rfl⟩

theorem keepsBuild_reset (p : Pipe) : p.KeepsBuild p.reset :=
  ⟨rfl, p.ring.capacity_clear, Array.size_replicate, rfl⟩

theorem keepsBuild_act (hs : p.schema.LaidOut) (hfollows : p.consumer.Follows p.schema)
    (action : Action) : p.KeepsBuild (p.act action).2 := by
  cases hproducing : action.isProducing with
  | true =>
    have hkeeps := p.keepsConsumer_of_isProducing hproducing
    exact ⟨hkeeps.config, (p.goesOn_of_isProducing hproducing).capacity,
      p.slots_of_isProducing hproducing, by rw [hkeeps.consumer]⟩
  | false =>
    cases action with
    | relayFrom | relayWithin => cases hproducing
    | run command =>
      cases command with
      | openAt | write | storeAhead | claim | publish | publishMarker | rebaseWrites | roomFor =>
        cases hproducing
      | isVisible target => exact (unmoved_isVisible target).keepsBuild
      | read => exact (attempt_read hs hfollows).keepsBuild
      | readMessage => exact (attempt_readMessage hs hfollows).keepsBuild
      | readContinuation =>
        show p.KeepsBuild p.readContinuation.2
        by_cases hdue : p.isMessageDue = true
        · rw [readContinuation_of_due hdue]
          exact keepsBuild_refl p
        · exact (attempt_readContinuation hs hfollows (by simpa using hdue)).keepsBuild
      | releaseNow => exact p.keepsBuild_releaseNow
      | rebaseReads => exact ⟨rfl, rfl, rfl, rfl⟩
      | skip words => exact p.keepsBuild_skip words
      | reset => exact p.keepsBuild_reset

end Keeping

section Reset

variable {schema : Schema} {config : Config} {p : Pipe}

theorem Reachable.keepsBuild (h : Reachable schema config p) (hs : schema.Compiled) :
    (fresh schema config).KeepsBuild p := by
  induction h with
  | built hbuilt =>
    rw [eq_fresh_of_build hbuilt]
    exact keepsBuild_refl _
  | @act p h action ih =>
    obtain ⟨rfl, hfollows⟩ := h.follows hs
    obtain ⟨hconfig, hcapacity, hslots, hbatch⟩ := keepsBuild_act hs.laidOut hfollows action
    exact ⟨hconfig.trans ih.config, hcapacity.trans ih.capacity, hslots.trans ih.slots,
      hbatch.trans ih.batchRelease⟩

/-- A reset brings back a fresh pipe, but for the leftovers in the stack. -/
theorem Reachable.reset_alike (h : Reachable schema config p) (hs : schema.Compiled) :
    p.reset.Alike (fresh schema config) := by
  have hkeeps := h.keepsBuild hs
  obtain ⟨rfl, hfollows⟩ := h.follows hs
  have hring : p.ring.clear = .blank config.size.wordBits config.size.byteBits := by
    apply Ring.clear_eq_blank
    rw [hkeeps.capacity]
    simp [fresh, Ring.blank, Ring.capacity, Channel.capacity, Channel.blank,
      RingSize.wordCapacity, RingSize.byteCapacity]
  have hslots : p.producer.starts.size = p.schema.maxFragmentDepth :=
    hkeeps.slots.trans Array.size_replicate
  refine ⟨.withCapacity p.schema.maxFragmentDepth 0, ⟨?_, ?_⟩, ?_⟩
  · exact Eq.trans Array.size_replicate hfollows.capacity.symm
  · exact (SequenceStack.frames_withCapacity _ _).trans (SequenceStack.frames_clear _).symm
  · simp only [fresh, reset, restack, Consumer.fresh, Consumer.rewind, Consumer.idle, hring, hslots,
      hfollows.starts, show p.config = config from hkeeps.config,
      show p.consumer.batchRelease = config.batchRelease from hkeeps.batchRelease]

/-- Whatever a pipe went through, a reset succeeds and leaves a pipe that cannot be told apart from
one newly built for the same schema and configuration: from there on every list of steps gives the
same replies and leaves the same to be observed. -/
theorem reset_starts_over (h : Reachable schema config p) (hs : schema.Compiled) :
    (p.run .reset).1 = .ok .done ∧
      ∃ q, build schema config = .ok q ∧ (p.run .reset).2.Interchangeable q := by
  refine ⟨rfl, fresh schema config, ?_, bisimulation_alike.interchangeable (h.reset_alike hs)⟩
  unfold build
  rw [h.validate]

/-- A pipe is reset inside an open sequence, with a fragment that is still being filled. The stack
keeps the frame of that sequence in a slot. -/
theorem reset_starts_over_book :
    ∃ p, Reachable Schema.book ⟨⟨4, 3⟩, 1⟩ p ∧ p.consumer.sequences.frames = [⟨2, 3⟩] ∧
      p.producer.pending ≠ none ∧ p.reset.consumer.sequences.slots.toList.head? = some ⟨2, 3⟩ ∧
      ∃ q, build Schema.book ⟨⟨4, 3⟩, 1⟩ = .ok q ∧ (p.run .reset).2.Interchangeable q := by
  have hbuilt : Reachable Schema.book ⟨⟨4, 3⟩, 1⟩ (fresh Schema.book ⟨⟨4, 3⟩, 1⟩) :=
    .built (build_eq_fresh (by decide +kernel))
  obtain ⟨p, hrun, hframes, hpending, hslots⟩ : ∃ p, Reachable Schema.book ⟨⟨4, 3⟩, 1⟩ p ∧
      p.consumer.sequences.frames = [⟨2, 3⟩] ∧ p.producer.pending ≠ none ∧
      p.reset.consumer.sequences.slots.toList.head? = some ⟨2, 3⟩ :=
    ⟨_, ((((hbuilt.act (.run (.openAt 0 0))).act (.run (.write ⟨0, 2⟩ (.word 2)))).act
      (.run .publish)).act (.run .read)).act (.run (.openAt 3 0)), by decide +kernel⟩
  exact ⟨p, hrun, hframes, hpending, hslots, (reset_starts_over hrun Schema.compiled_book).2⟩

end Reset

end Pipe

end FragmentPipe

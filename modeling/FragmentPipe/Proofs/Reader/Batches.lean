import FragmentPipe.Proofs.Reader.Cursor

set_option autoImplicit false

namespace FragmentPipe

namespace Consumer

theorem enter_shape {schema : Schema} {ring : Ring} {fragment : Fragment} {c c' : Consumer}
    (h : c.enter schema ring fragment = some c') :
    ∃ cursor nextCursor sequences, c' = { c with cursor, nextCursor, sequences } := by
  have hrests : ∀ (position : Nat) (c : Consumer), ∃ nextCursor sequences,
      c.resumeAt schema position = { c with nextCursor, sequences } :=
    fun position c => ⟨_, _, (resumeAt_eq schema position c).choose_spec.1⟩
  unfold enter at h
  cases hlast : schema.lastOf? fragment with
  | none =>
    rw [hlast] at h
    cases h
  | some found =>
    simp only [hlast] at h
    split at h
    · split at h
      · obtain ⟨sequences, -, rfl⟩ := Option.map_eq_some_iff.1 h
        exact ⟨_, _, _, rfl⟩
      · split at h <;> cases h
        · exact ⟨_, _, _, rfl⟩
        · obtain ⟨nextCursor, sequences, heq⟩ := hrests _ _
          exact ⟨_, nextCursor, sequences, heq⟩
    · split at h
      · split at h <;> cases h
        · exact ⟨_, _, _, rfl⟩
        · obtain ⟨nextCursor, sequences, heq⟩ := hrests _ _
          exact ⟨_, nextCursor, sequences, heq⟩
      · cases h
        exact ⟨_, _, _, rfl⟩

end Consumer

namespace Pipe

/-- One more item of a batch is read: the batch goes on, or it is complete and everything before the
item is released. -/
structure Batches (p q : Pipe) : Prop where
  batchRelease : q.consumer.batchRelease = p.consumer.batchRelease
  fragmentsRead : q.consumer.fragmentsRead = p.consumer.fragmentsRead + 1
  released :
    (1 < p.consumer.batchCountdown ∧
        q.consumer.batchCountdown = p.consumer.batchCountdown - 1 ∧
        q.consumer.releaseCount = p.consumer.releaseCount ∧ q.ring.tail = p.ring.tail) ∨
      (p.consumer.batchCountdown ≤ 1 ∧ q.consumer.batchCountdown = p.consumer.batchRelease ∧
        q.consumer.releaseCount = p.consumer.releaseCount + 1 ∧
        q.ring.tail = q.consumer.tail)

section

variable {p q : Pipe} {start bytes : Nat} {item : ReadItem}

theorem batches_onto (p : Pipe) (start : Nat) (item : ReadItem) (bytes : Nat) :
    p.Batches (p.onto start item bytes) := by
  unfold onto releaseBatch
  simp only
  split
  · rename_i hdone
    have hlast : p.consumer.batchCountdown ≤ 1 := by
      change p.consumer.batchCountdown - 1 ≤ 0 at hdone
      omega
    cases item <;> exact ⟨rfl, rfl, .inr ⟨hlast, rfl, rfl, rfl⟩⟩
  · rename_i hmore
    have hmore' : 1 < p.consumer.batchCountdown := by
      change ¬ p.consumer.batchCountdown - 1 ≤ 0 at hmore
      omega
    cases item <;> exact ⟨rfl, rfl, .inl ⟨hmore', rfl, rfl, rfl⟩⟩

/-- A commit moves onto the item as far as its batch and its extent are concerned; only the cursors
and the open sequences are found afterwards. -/
theorem commit_onto (h : p.commit start item bytes = some q) :
    ∃ cursor nextCursor sequences, q = { p.onto start item bytes with
      consumer := { (p.onto start item bytes).consumer with cursor, nextCursor, sequences } } := by
  by_cases hdepth : item.depth < p.consumer.starts.size
  · rw [p.commit_eq_onto start item bytes hdepth] at h
    cases hfragment : item.fragment? with
    | none =>
      simp only [hfragment] at h
      cases h
      exact ⟨_, _, _, rfl⟩
    | some f =>
      simp only [hfragment] at h
      obtain ⟨c, henter, rfl⟩ := Option.map_eq_some_iff.1 h
      obtain ⟨cursor, nextCursor, sequences, rfl⟩ := Consumer.enter_shape henter
      exact ⟨cursor, nextCursor, sequences, rfl⟩
  · unfold commit at h
    rw [if_neg hdepth] at h
    cases h

theorem Prepares.batches (h : p.Prepares start item bytes q) : p.Batches q := by
  obtain ⟨seen, -, hcommit⟩ := h.commit
  have hbatches := (p.look seen).batches_onto start item bytes
  obtain ⟨cursor, nextCursor, sequences, rfl⟩ := commit_onto hcommit
  exact ⟨hbatches.batchRelease, hbatches.fragmentsRead, hbatches.released⟩

theorem Prepares.begun (h : p.Prepares start item bytes q) : p.Begun start item bytes q := by
  obtain ⟨seen, hseen, hcommit⟩ := h.commit
  have hbegun := (p.look seen).begun_onto start item bytes
  obtain ⟨cursor, nextCursor, sequences, rfl⟩ := commit_onto hcommit
  exact (hbegun.withCursor cursor nextCursor sequences).of_look hseen

theorem Attempt.batches {expected : ReadItem → Prop} (h : p.Attempt expected (.ok true, q)) :
    p.Batches q := by
  cases h with
  | moved _ hprepares _ _ => exact hprepares.batches

theorem releaseNow_cases (p : Pipe) :
    (p.consumer.batchCountdown = p.consumer.batchRelease ∧
        p.ring.tail.words = p.consumer.tail.words ∧ p.releaseNow = p) ∨
      p.releaseNow = p.release := by
  unfold releaseNow
  split
  · exact .inr rfl
  · rename_i hnothing
    rw [not_or, ne_eq, ne_eq, Decidable.not_not, Decidable.not_not] at hnothing
    exact .inl ⟨hnothing.1, hnothing.2, rfl⟩

end

end Pipe

end FragmentPipe

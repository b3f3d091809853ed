import FragmentPipe.Proofs.Writer.Gathered

set_option autoImplicit false

namespace FragmentPipe

namespace Ring

structure Lands (source : Ring) (c : Consumer) (head : Mark) (r : Ring) : Prop where
  words : ∀ i, i < c.extent.words →
    r.word (head.words + i) = source.word (c.tail.words + i)
  bytes : ∀ i, i < c.extent.bytes →
    r.byte (head.bytes + i) = source.byte (c.tail.bytes + i)

section

variable {r source : Ring} {c : Consumer} {head low : Mark}

theorem lands_copyPrepared (hroom : c.extent ≤ r.capacity) :
    source.Lands c head (r.copyPrepared source c head) :=
  ⟨fun _ hi => r.words.get_copyFrom_inside _ source.words _ hroom.1 hi,
    fun _ hi => r.bytes.get_copyFrom_inside _ source.bytes _ hroom.2 hi⟩

/-- Within one ring nothing is copied over that is still to be copied, as long as both lie within
one capacity. -/
theorem lands_repeatPrepared (hlow : low ≤ c.tail) (hbehind : c.tail + c.extent ≤ head)
    (hroom : head + c.extent ≤ low + r.capacity) : r.Lands c head (r.repeatPrepared c head) :=
  ⟨fun _ hi => r.words.get_copyWithin_inside _ hlow.1 hbehind.1 hroom.1 hi,
    fun _ hi => r.bytes.get_copyWithin_inside _ hlow.2 hbehind.2 hroom.2 hi⟩

theorem Lands.of_keeps {source' : Ring} (h : source'.Lands c head r)
    (hkeeps : source.Keeps source' c.tail (c.tail + c.extent)) : source.Lands c head r := by
  refine ⟨fun i hi => ?_, fun i hi => ?_⟩
  · rw [h.words i hi]
    exact hkeeps.words _ (Nat.le_add_right _ _) (Nat.add_lt_add_left hi _)
  · rw [h.bytes i hi]
    exact hkeeps.bytes _ (Nat.le_add_right _ _) (Nat.add_lt_add_left hi _)

end

end Ring

namespace Pipe

/-- The prepared fragment is behind the old head and published, what was open is complete with its
bytes counted, and nothing else that was claimed is different. -/
structure Receives (source : Ring) (c : Consumer) (gathered : Nat) (p q : Pipe) : Prop where
  lands : source.Lands c p.producer.head q.ring
  head : q.producer.head = p.producer.head + c.extent
  published : q.ring.head = p.producer.head + c.extent
  complete : q.producer.pending = none
  trailer : ∀ opened, p.producer.pending = some opened →
    (q.ring.word opened.trailer).toInt = gathered
  words : ∀ i, p.ring.tail.words ≤ i → i < p.producer.head.words →
    (∀ opened, p.producer.pending = some opened → i ≠ opened.trailer) →
      q.ring.word i = p.ring.word i
  bytes : ∀ i, p.ring.tail.bytes ≤ i → i < p.producer.head.bytes → q.ring.byte i = p.ring.byte i

structure KeepsReading (p q : Pipe) : Prop where
  consumer : q.consumer = p.consumer
  prepared : p.ring.Keeps q.ring p.consumer.tail (p.consumer.tail + p.consumer.extent)

section

variable {p q : Pipe} {source : Ring} {c : Consumer} {gathered : Nat}

theorem Ordered.word_storeTrailer_of_ne (h : p.Ordered) {i : Nat} (hlow : p.ring.tail.words ≤ i)
    (hhigh : i < p.producer.head.words)
    (hne : ∀ opened, p.producer.pending = some opened → i ≠ opened.trailer) :
    p.storeTrailer.ring.word i = p.ring.word i := by
  unfold Pipe.storeTrailer
  split
  · rfl
  · rename_i opened hopened
    obtain ⟨hfirst, hlast⟩ := h.pending opened hopened
    have hreleased := h.tail_le_head
    have hroom := h.room.1
    have hcapacity : p.ring.capacity.words = p.ring.words.capacity := rfl
    simp only [Mark.words_add] at hroom
    exact p.ring.words.get_set_of_ne p.ring.tail.words _ (by omega) (by omega) hlow (by omega)
      (hne opened hopened).symm

theorem Receives.of_glance (seen : Mark) (h : (p.glance seen).Receives source c gathered q) :
    p.Receives source c gathered q :=
  ⟨h.lands, h.head, h.published, h.complete, h.trailer, h.words, h.bytes⟩

theorem Ordered.prepared_published (h : p.Ordered)
    (hbytes : p.consumer.tail.bytes + p.consumer.fragmentBytes ≤ p.ring.head.bytes) :
    p.consumer.tail + p.consumer.extent ≤ p.ring.head := by
  have hprepared := h.prepared
  have hunread := h.unread
  refine ⟨?_, hbytes⟩
  simp only [Mark.words_add, Consumer.extent]
  omega

end

section Receiving

variable {p q : Pipe} {source : Ring} {c : Consumer} {gathered : Nat} (h : p.Gathers gathered)
  (hordered : p.Ordered) (hcapacity : p.ring.capacity.bytes ≤ 0x40000000)
  (hreleased : p.ring.tail.bytes ≤ p.ring.head.bytes)

include h hordered hcapacity hreleased

/-- What the open fragment has gathered fits a channel, so its trailer counts it exactly. -/
theorem Gathers.word_storeTrailer {opened : OpenFragment}
    (hopened : p.producer.pending = some opened) :
    (p.storeTrailer.ring.word opened.trailer).toInt = gathered := by
  obtain ⟨hlow, hhead⟩ := h opened hopened
  have hroom := hordered.room.2
  simp only [Mark.bytes_add] at hroom
  rw [Pipe.word_storeTrailer hopened, hhead, Nat.add_sub_cancel_left, toInt_ofNat (by omega)]

/-- What is prepared is received by any transfer that puts it behind the head and touches nothing
before it. -/
theorem Gathers.receives {transfer : Ring → Mark → Ring} (happends : Appends c transfer p q)
    (hlands : source.Lands c p.producer.head
      (transfer { p.storeTrailer.ring with head := p.producer.head } p.producer.head))
    (hkeeps : p.storeTrailer.ring.Keeps
      (transfer { p.storeTrailer.ring with head := p.producer.head } p.producer.head)
      p.ring.tail p.producer.head) :
    p.Receives source c gathered q := by
  refine ⟨⟨?_, ?_⟩, happends.head, by rw [happends.ring], happends.pending,
    fun opened hopened => ?_, fun i hlow hhigh hne => ?_, fun i hlow hhigh => ?_⟩ <;>
    rw [happends.ring]
  · exact hlands.words
  · exact hlands.bytes
  · obtain ⟨hfirst, hlast⟩ := hordered.pending opened hopened
    have htail : p.ring.tail.words ≤ opened.trailer :=
      Nat.le_trans hordered.tail_le_head hfirst
    rw [← h.word_storeTrailer hordered hcapacity hreleased hopened]
    exact congrArg Int32.toInt (hkeeps.words _ htail hlast)
  · rw [← hordered.word_storeTrailer_of_ne hlow hhigh hne]
    exact hkeeps.words i hlow hhigh
  · refine (hkeeps.bytes i hlow hhigh).trans ?_
    rw [Ring.byte, Ring.byte, bytes_storeTrailer]

theorem Gathers.receives_accept {transfer : Ring → Mark → Ring}
    (hlands : ∀ r : Ring, p.ring.Keeps r p.ring.tail p.ring.head →
      p.producer.head + c.extent ≤ p.ring.tail + r.capacity →
        source.Lands c p.producer.head (transfer r p.producer.head))
    (hkeeps : ∀ r : Ring, p.producer.head + c.extent ≤ p.ring.tail + r.capacity →
      r.Keeps (transfer r p.producer.head) p.ring.tail p.producer.head)
    (hdone : (p.accept c transfer).1 = .ok true) :
    p.Receives source c gathered (p.accept c transfer).2 := by
  rcases p.accept_cases c transfer with
    ⟨-, haccept⟩ | ⟨-, ⟨seen, hseen, hfits, haccept⟩ | ⟨-, haccept⟩⟩ <;> rw [haccept] at hdone ⊢
  · cases hdone
  · have hroom : p.producer.head + c.extent ≤
        p.ring.tail + (p.glance seen).storeTrailer.ring.capacity := by
      rw [capacity_storeTrailer]
      exact hordered.fits hseen hfits
    have hsame : p.ring.Keeps (p.glance seen).storeTrailer.ring p.ring.tail p.ring.head :=
      keepsPublished_storeTrailer (hordered.glance hseen)
    refine .of_glance seen ?_
    apply Gathers.receives (p := p.glance seen) h (hordered.glance hseen) hcapacity hreleased
      (appends_append (p.glance seen) c transfer)
    · exact hlands { (p.glance seen).storeTrailer.ring with head := p.producer.head }
        ⟨hsame.words, hsame.bytes⟩ hroom
    · obtain ⟨hwords, hbytes⟩ :=
        hkeeps { (p.glance seen).storeTrailer.ring with head := p.producer.head } hroom
      exact ⟨hwords, hbytes⟩
  · cases hdone

theorem Gathers.receives_relayFrom {origin : Pipe} (hdone : (p.relayFrom origin).1 = .ok true) :
    p.Receives origin.ring origin.consumer gathered (p.relayFrom origin).2 := by
  have hclaimed : p.ring.tail ≤ p.producer.head :=
    Mark.le_trans ⟨hordered.tail_le_head, hreleased⟩ hordered.published
  refine h.receives_accept hordered hcapacity hreleased (fun r _ hroom => ?_)
    (fun r hroom => r.keeps_copyPrepared _ _ (Mark.le_refl _) hroom) hdone
  obtain ⟨hwords, hbytes⟩ := hroom
  simp only [Mark.words_add, Mark.bytes_add] at hwords hbytes
  exact Ring.lands_copyPrepared ⟨by have := hclaimed.1; omega, by have := hclaimed.2; omega⟩

theorem Gathers.receives_relayWithin
    (hbytes : p.consumer.tail.bytes + p.consumer.fragmentBytes ≤ p.ring.head.bytes)
    (hdone : p.relayWithin.1 = .ok true) :
    p.Receives p.ring p.consumer gathered p.relayWithin.2 ∧ p.KeepsReading p.relayWithin.2 := by
  have hprepared := hordered.prepared_published hbytes
  refine ⟨?_, (p.keepsConsumer_accept _ _).consumer, ?_⟩
  · refine h.receives_accept hordered hcapacity hreleased (fun r hsame hroom => ?_)
      (fun r hroom => r.keeps_repeatPrepared _ (Mark.le_refl _) hroom) hdone
    refine (Ring.lands_repeatPrepared hordered.released ?_ hroom).of_keeps
      (hsame.mono hordered.released hprepared)
    exact Mark.le_trans hprepared hordered.published
  · exact (keepsPublished_accept hordered _ _ fun r _ _ _ hhigh hroom =>
      r.keeps_repeatPrepared _ hhigh hroom).mono hordered.released hprepared

end Receiving

end Pipe

namespace Network

open Pipe

theorem flag_of_replying {result : Except Fault Bool × Pipe} {answer : Bool}
    (h : (replying .flag result).1 = .ok (.flag answer)) : result.1 = .ok answer := by
  unfold replying at h
  cases hresult : result.1 with
  | error fault =>
    rw [hresult] at h
    cases h
  | ok found =>
    rw [hresult] at h
    cases h
    rfl

/-- A prepared fragment that is passed on, to another pipe or to its own, lies behind the old head
of the target as it was prepared, and is published. The fragment that was open there is complete,
its trailer counting the bytes that it gathered. Beside that nothing is different that was claimed,
and the source still has the fragment prepared. -/
theorem relay_verbatim {schema : Schema} {config : Config} {n : Network} {i j gathered : Nat}
    {source target : Pipe} (hs : schema.Accepted) (hsource : n.pipes[i]? = some source)
    (htarget : n.pipes[j]? = some target) (hrun : Gathered schema config target gathered)
    (hbytes : source.consumer.tail.bytes + source.consumer.fragmentBytes ≤ source.ring.head.bytes)
    (hreleased : target.ring.tail.bytes ≤ target.ring.head.bytes)
    (hdone : (n.step (.relay i j)).1 = .ok (.flag true)) :
    ∃ origin q, (n.step (.relay i j)).2.pipes[i]? = some origin ∧
      (n.step (.relay i j)).2.pipes[j]? = some q ∧
        target.Receives source.ring source.consumer gathered q ∧ source.KeepsReading origin := by
  have hgathers := hrun.gathers hs
  have hordered := hrun.reachable.ordered hs
  have hcapacity : target.ring.capacity.bytes ≤ 0x40000000 := by
    rw [hrun.reachable.capacity_eq hs]
    exact (Config.capacity_le hrun.reachable.validate).2
  have hinside : j < n.pipes.size := (Array.getElem?_eq_some_iff.1 htarget).1
  unfold Network.step at hdone ⊢
  simp only [hsource, htarget] at hdone ⊢
  by_cases hsame : i = j
  · subst hsame
    obtain rfl : source = target := Option.some.inj (hsource.symm.trans htarget)
    simp only [↓reduceIte] at hdone ⊢
    obtain ⟨hreceives, hkeeps⟩ := hgathers.receives_relayWithin hordered hcapacity hreleased
      hbytes (flag_of_replying hdone)
    exact ⟨_, _, Array.getElem?_setIfInBounds_self_of_lt hinside,
      Array.getElem?_setIfInBounds_self_of_lt hinside, hreceives, hkeeps⟩
  · simp only [hsame, ↓reduceIte] at hdone ⊢
    refine ⟨source, _, ?_, Array.getElem?_setIfInBounds_self_of_lt hinside,
      hgathers.receives_relayFrom hordered hcapacity hreleased (flag_of_replying hdone), rfl,
      .of_eq rfl rfl⟩
    rw [Array.getElem?_setIfInBounds_ne (Ne.symm hsame)]
    exact hsource

/-- Behind a raw block a message is prepared and a level is open with two letters. The message is
passed on to its own pipe, over the end of the ring. -/
theorem relay_verbatim_book :
    ∃ p q, Gathered Schema.book ⟨⟨4, 3⟩, 1⟩ p 2 ∧ p.producer.pending = some ⟨16, 0⟩ ∧
      (Network.step ⟨#[p]⟩ (.relay 0 0)).2.pipes[0]? = some q ∧
      p.Receives p.ring p.consumer 2 q ∧ q.ring.head = ⟨21, 2⟩ ∧ (q.ring.word 16).toInt = 2 := by
  have haccepted : Schema.book.Accepted :=
    ⟨Schema.compiled_book, by decide, by decide, by decide⟩
  have hbuilt : Gathered Schema.book ⟨⟨4, 3⟩, 1⟩ (fresh Schema.book ⟨⟨4, 3⟩, 1⟩) 0 :=
    .built (build_eq_fresh (by decide +kernel))
  have hmessage := (((((hbuilt.act (.run (.claim 7))).act (.run .publish)).act
    (.run (.skip 7))).act (.run (.openAt 0 0))).act (.run .publish)).act (.run .read)
  obtain ⟨p, hrun, hpending, hpublished, hreleased, hhead, hdone⟩ :
      ∃ p, Gathered Schema.book ⟨⟨4, 3⟩, 1⟩ p 2 ∧ p.producer.pending = some ⟨16, 0⟩ ∧
        p.consumer.tail.bytes + p.consumer.fragmentBytes ≤ p.ring.head.bytes ∧
        p.ring.tail.bytes ≤ p.ring.head.bytes ∧
        p.producer.head + p.consumer.extent = ⟨21, 2⟩ ∧
        (Network.step ⟨#[p]⟩ (.relay 0 0)).1 = .ok (.flag true) :=
    ⟨_, (hmessage.act (.run (.openAt 3 0))).act (.run (.write ⟨1, 3⟩ (.bytes [72, 105]))),
      by decide +kernel, by decide +kernel, by decide +kernel, by decide +kernel,
      ok_of_toOption (by decide +kernel)⟩
  obtain ⟨origin, q, -, hq, hreceives, -⟩ :=
    relay_verbatim (n := ⟨#[p]⟩) haccepted rfl rfl hrun hpublished hreleased hdone
  exact ⟨p, q, hrun, hpending, hq, hreceives, hreceives.published.trans hhead,
    hreceives.trailer _ hpending⟩

/-- Where the preamble is negative, an open fragment may claim no word at all. Its trailer lies in
front of its start then, and a fragment that fills the ring is passed on over it. -/
theorem relay_over_trailer :
    (Schema.tick 0 .byteArray).Compiled ∧ (Schema.tick (-3) .integerSigned).Compiled ∧
      ∃ source target opened, Reachable (.tick 0 .byteArray) ⟨⟨2, 1⟩, 1⟩ source ∧
        Gathered (.tick (-3) .integerSigned) ⟨⟨2, 1⟩, 1⟩ target 0 ∧
        source.consumer.tail.bytes + source.consumer.fragmentBytes ≤ source.ring.head.bytes ∧
        target.ring.tail.bytes ≤ target.ring.head.bytes ∧
        (Network.step ⟨#[source, target]⟩ (.relay 0 1)).1 = .ok (.flag true) ∧
        target.producer.pending = some opened ∧
        ¬ ∃ q, (Network.step ⟨#[source, target]⟩ (.relay 0 1)).2.pipes[1]? = some q ∧
          (q.ring.word opened.trailer).toInt = 0 := by
  have hfields : Schema.ofFields [("Value", .value .byteArray false)] =
      .ok (.tick 0 .byteArray) := rfl
  have hscript : Schema.ofScript [.build (.value .integerSigned false) 0 0] ["Value"] (-3) =
      .ok (.tick (-3) .integerSigned) := rfl
  have hsource : Reachable (.tick 0 .byteArray) ⟨⟨2, 1⟩, 1⟩
      (fresh (.tick 0 .byteArray) ⟨⟨2, 1⟩, 1⟩) := .built (build_eq_fresh (by decide +kernel))
  have htarget : Gathered (.tick (-3) .integerSigned) ⟨⟨2, 1⟩, 1⟩
      (fresh (.tick (-3) .integerSigned) ⟨⟨2, 1⟩, 1⟩) 0 :=
    .built (build_eq_fresh (by decide +kernel))
  have hsent := (((hsource.act (.run (.openAt 0 0))).act (.run (.write ⟨0, 1⟩ (.bytes [7])))).act
    (.run .publish)).act (.run .read)
  have hskipped := ((((htarget.act (.run (.storeAhead 0 7))).act (.run (.claim 1))).act
    (.run .publish)).act (.run (.skip 1))).act (.run .releaseNow)
  refine ⟨.fields hfields, .script hscript, _, _, ⟨0, 0⟩, hsent,
    hskipped.act (.run (.openAt 0 0)), by decide +kernel, by decide +kernel,
    ok_of_toOption (by decide +kernel), by decide +kernel, ?_⟩
  rintro ⟨q, hq, hword⟩
  have hsome := congrArg (Option.map fun q => (q.ring.word 0).toInt) hq
  rw [Option.map_some, hword] at hsome
  revert hsome
  decide +kernel

end Network

end FragmentPipe

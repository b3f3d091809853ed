import FragmentPipe.Proofs.Interchange.Rescripted
import FragmentPipe.Proofs.Interchange.Unpublished
import FragmentPipe.Proofs.Stream.Delivery
import FragmentPipe.Proofs.Stream.Histories
import Mathlib.Data.List.Basic

set_option autoImplicit false

namespace FragmentPipe

section Streams

def FragmentData.wrapped (d : FragmentData) : FragmentData :=
  ⟨d.cursor, fun position => d.value (position - 1)⟩

def MessageData.wrapped (m : MessageData) : MessageData :=
  ⟨m.id, m.fragments.map FragmentData.wrapped⟩

def StreamItem.wrapped : StreamItem → StreamItem
  | .endOfStream => .endOfStream
  | .message m => .message m.wrapped

def Piece.wrapped : Piece → Piece
  | .marker => .marker
  | .fragment m index d => .fragment m.wrapped index d.wrapped

def Progress.wrapped (g : Progress) : Progress := { g with left := g.left.map (· + 1) }

theorem piecesOf_wrapped (items : List StreamItem) :
    piecesOf (items.map StreamItem.wrapped) = (piecesOf items).map Piece.wrapped := by
  have hpieces : ∀ item : StreamItem, item.wrapped.pieces = item.pieces.map Piece.wrapped := by
    intro item
    cases item with
    | endOfStream => rfl
    | message m =>
      apply List.ext_getElem?
      intro i
      simp only [StreamItem.wrapped, StreamItem.pieces, MessageData.wrapped, List.getElem?_mapIdx,
        List.getElem?_map, Option.map_map]
      rfl
  simp only [piecesOf, List.flatMap_map, List.map_flatMap, hpieces]

variable {items : List StreamItem} {k : Nat}

theorem piecesOf_wrapped_of {piece : Piece} (h : (piecesOf items)[k]? = some piece) :
    (piecesOf (items.map StreamItem.wrapped))[k]? = some piece.wrapped := by
  rw [piecesOf_wrapped, List.getElem?_map, h]
  rfl

theorem exists_fragment_of_wrapped {m : MessageData} {index : Nat} {d : FragmentData}
    (h : (piecesOf (items.map StreamItem.wrapped))[k]? = some (.fragment m index d)) :
    ∃ m' d', (piecesOf items)[k]? = some (.fragment m' index d') ∧ m = m'.wrapped ∧
      d = d'.wrapped := by
  rw [piecesOf_wrapped, List.getElem?_map, Option.map_eq_some_iff] at h
  obtain ⟨piece, hpiece, heq⟩ := h
  cases piece with
  | marker => cases heq
  | fragment m' index' d' =>
    cases heq
    exact ⟨m', d', hpiece, rfl, rfl⟩

theorem marker_of_wrapped (h : (piecesOf (items.map StreamItem.wrapped))[k]? = some .marker) :
    (piecesOf items)[k]? = some .marker := by
  rw [piecesOf_wrapped, List.getElem?_map, Option.map_eq_some_iff] at h
  obtain ⟨piece, hpiece, heq⟩ := h
  cases piece with
  | marker => exact hpiece
  | fragment m index d => cases heq

end Streams

namespace Schema

/-- Both scripts are one fragment of the same words, and the fields of the second are those of the
first, one position further on. -/
structure Shifted (s t : Schema) (words : Int) : Prop where
  inner : s.Undivided words
  outer : t.Undivided words
  offset : t.templateOffset = s.templateOffset
  locator : ∀ i < s.size, t.locator? (i + 1) = s.locator? i
  fields : t.fieldsOf (t.whole words) = (s.fieldsOf (s.whole words)).map (· + 1)

theorem filter_range_wrapped {α : Type} (f : α → Bool) {a b : α} (l : List α) (ha : f a = false)
    (hb : f b = false) :
    ((List.range (l.length + 2)).filter fun p => (a :: (l ++ [b]))[p]?.any f) =
      ((List.range l.length).filter fun p => l[p]?.any f).map (· + 1) := by
  have hinside : ∀ p ∈ List.range l.length,
      ((a :: (l ++ [b]))[p + 1]?.any f) = l[p]?.any f := by
    intro p hp
    rw [List.getElem?_cons_succ, List.getElem?_append_left (List.mem_range.1 hp)]
  rw [List.range_succ, List.filter_append, List.range_succ_eq_map, List.filter_cons,
    List.filter_map]
  simp only [List.getElem?_cons_zero, Option.any_some, ha, Bool.false_eq_true, ↓reduceIte]
  have hcongr : (List.range l.length).filter ((fun p => (a :: (l ++ [b]))[p]?.any f) ∘ Nat.succ) =
      (List.range l.length).filter fun p => l[p]?.any f := List.filter_congr hinside
  rw [hcongr]
  simp [hb]

theorem fieldsOf_whole (s : Schema) (words : Int) :
    s.fieldsOf (s.whole words) =
      (List.range s.size).filter fun p => s.tokens[p]?.any fun token => token.shape?.isSome := by
  unfold fieldsOf whole
  simp only [getElem?_tokens, Option.any_map, List.range_eq_range']

theorem Brackets.shifted {t : Schema} {script : List (Token × String)} {opening closing : Token}
    (hne : script ≠ []) (h : t.Brackets script opening closing) :
    Shifted (flat t.templateOffset script) t (wordsOf t.templateOffset script) where
  inner := undivided_flat hne h.plain
  outer := h.undivided
  offset := rfl
  locator := fun i hi => by
    obtain ⟨loc, hinner, houter⟩ := h.exists_locator i hi
    rw [hinner, houter]
  fields := by
    have hshape : ∀ {token : Token} {kind : GroupKind},
        token.role = .opening kind ∨ token.role = .closing kind → token.shape?.isSome = false := by
      intro token kind hrole
      rw [Token.shape?, Token.kind?_of_bracket hrole]
      rfl
    rw [fieldsOf_whole, fieldsOf_whole, h.tokens, h.size_eq, tokens_flat, size_flat]
    have hfilter := filter_range_wrapped (fun token : Token => token.shape?.isSome)
      (script.map Prod.fst) (hshape (.inl h.opens)) (hshape (.inr h.closes))
    rwa [List.length_map] at hfilter

theorem Undivided.fragments_eq {s : Schema} {words : Int} (hs : s.Undivided words)
    (hlaid : s.LaidOut) {m : MessageData} (h : m.Fits s) :
    m.id = 0 ∧ m.fragments.map FragmentData.cursor = [0] := by
  have hid : m.id = 0 := by
    have hstarts := h.starts
    rw [hs.isMessageStart_eq] at hstarts
    simpa using hstarts
  have hfirst : ∀ {i : Nat} {d : FragmentData}, m.fragments[i]? = some d →
      i = 0 ∧ d.cursor = 0 := by
    intro i d hd
    obtain ⟨f, hf, -, hcursor, hstarts⟩ := h.begins hlaid hd
    rw [hs.fragment?_eq] at hf
    split at hf <;> cases hf
    have hzero : i = 0 := of_decide_eq_true hstarts.symm
    exact ⟨hzero, (hcursor hzero).trans hid⟩
  refine ⟨hid, ?_⟩
  cases hfragments : m.fragments with
  | nil => exact absurd hfragments (h.fragments_ne_nil hlaid)
  | cons d rest =>
    cases rest with
    | nil =>
      have hcursor := (@hfirst 0 d (by rw [hfragments]; rfl)).2
      rw [List.map_cons, hcursor]
      rfl
    | cons e rest =>
      exact absurd (@hfirst 1 e (by rw [hfragments]; rfl)).1 Nat.one_ne_zero

section Fitting

variable {t : Schema} {script : List (Token × String)} {opening closing : Token}
  (hne : script ≠ []) (h : t.Brackets script opening closing)

include hne h

theorem Brackets.fits_fragment {d : FragmentData} (hd : d.Fits (flat t.templateOffset script)) :
    d.wrapped.Fits t := by
  have hshifted := h.shifted hne
  refine ⟨fun f position e shape hf hle hlt he hshape => ?_, fun f last e hf hlast hlength => ?_⟩
  · have houter := hshifted.outer.fragment?_eq d.wrapped.cursor
    rw [hf] at houter
    split at houter <;> cases houter
    rename_i hcursor
    have hfield := mem_fieldsOf.2 ⟨hle, hlt, e, shape, he, hshape⟩
    rw [hshifted.fields] at hfield
    obtain ⟨i, hi, rfl⟩ := List.mem_map.1 hfield
    obtain ⟨hle', hlt', e', shape', he', hshape'⟩ := mem_fieldsOf.1 hi
    have hsame : e'.token = e.token := by
      have hin : i < script.length := by
        have := lt_size_of_getElem? he'
        rwa [size_flat] at this
      have htoken := h.getElem?_inside hin
      rw [getElem?_tokens, he] at htoken
      have htoken' : (flat t.templateOffset script).tokens[i]? = some script[i].1 := by
        rw [tokens_flat, List.getElem?_map, List.getElem?_eq_getElem hin]
        rfl
      rw [getElem?_tokens, he'] at htoken'
      exact (Option.some.inj htoken').trans (Option.some.inj htoken).symm
    refine hd.shape _ i e' shape ?_ hle' hlt' he' (hsame ▸ hshape)
    rw [hshifted.inner.fragment?_eq]
    exact if_pos hcursor
  · have houter := hshifted.outer.fragment?_eq d.wrapped.cursor
    rw [hf] at houter
    split at houter <;> cases houter
    obtain ⟨final, hfinal, hnot, -⟩ := hshifted.outer.lastOf?_whole
    rw [hlast] at hfinal
    cases hfinal
    rw [hnot] at hlength
    cases hlength

theorem Brackets.fits_wrapped {items : List StreamItem}
    (hfits : StreamFits (flat t.templateOffset script) items) :
    StreamFits t (items.map StreamItem.wrapped) := by
  have hroles : ∀ token ∈ script.map Prod.fst, token.role = .plain := by
    intro token htoken
    obtain ⟨item, hitem, rfl⟩ := List.mem_map.1 htoken
    exact h.plain item hitem
  intro m' hm'
  obtain ⟨item, hitem, heq⟩ := List.mem_map.1 hm'
  cases item with
  | endOfStream => cases heq
  | message m =>
    cases heq
    have hm := hfits m hitem
    obtain ⟨hid, hcursors⟩ :=
      (h.shifted hne).inner.fragments_eq (laidOut_flat h.plain) hm
    refine ⟨?_, ⟨.bracketed [.ofPlain h.opens h.closes _ hroles], ?_, ?_⟩, fun d hd => ?_⟩
    · rw [h.undivided.isMessageStart_eq]
      simpa [MessageData.wrapped] using hid
    · simp [Script.tokens, Message.tokens, Message.ofPlain, Body.tokens_ofPlain, h.tokens]
    · have hsame : m.wrapped.fragments.map FragmentData.cursor =
          m.fragments.map FragmentData.cursor := by
        simp [MessageData.wrapped, FragmentData.wrapped, Function.comp_def]
      rw [hsame, hcursors]
      simp [MessageData.wrapped, hid, Script.unfold, unfoldMessages, Message.unfold,
        Message.ofPlain, Body.unfold_ofPlain, Body.draft_ofPlain]
    · obtain ⟨d', hd', rfl⟩ := List.mem_map.1 hd
      exact h.fits_fragment hne (hm.fragments d' hd')

end Fitting

end Schema

def Command.isFramed : Command → Bool
  | .openAt _ _ | .write _ _ | .publish | .publishMarker | .read | .releaseNow => true
  | _ => false

namespace Pipe

/-- The pipes hold the same, and the same can be read from them. Their readers both wait for a
message, each at the end of its own script. -/
structure Alongside (p q : Pipe) : Prop where
  ring : q.ring = p.ring
  producer : q.producer = p.producer
  consumer : q.consumer = { p.consumer with nextCursor := q.consumer.nextCursor }
  nextCursor : q.consumer.nextCursor = p.consumer.nextCursor.map fun _ => q.schema.size
  isMessageDue : p.isMessageDue = true ∧ q.isMessageDue = true
  readValue : ∀ loc shape, q.readValue loc shape = p.readValue loc shape
  readLength : ∀ loc, q.readLength loc = p.readLength loc
  readBytes : ∀ loc limit, q.readBytes loc limit = p.readBytes loc limit
  readText : ∀ loc, q.readText loc = p.readText loc

section Framing

variable {s t : Schema} {words : Int} {config : Config} {items : List StreamItem} {p : Pipe}
  {g : Progress}

theorem alongside_rescript (t : Schema) (hdue : p.isMessageDue = true) :
    p.Alongside (p.rescript t) :=
  ⟨rfl, rfl, rfl, rfl, ⟨hdue, p.isMessageDue_rescript t⟩, fun _ _ => rfl, fun _ => rfl,
    fun _ _ => rfl, fun _ => rfl⟩

theorem Reachable.isMessageDue (h : Reachable s config p) (hs : s.Compiled)
    (hinner : s.Undivided words) : p.isMessageDue = true := by
  obtain ⟨rfl, hfollows⟩ := h.follows hs
  unfold Pipe.isMessageDue
  cases hnext : p.consumer.nextCursor with
  | none => rfl
  | some next =>
    rcases (hfollows.rests next hnext).begins with hend | hbegins
    · simp [show next = p.schema.size from hend]
    · rw [Schema.isSome_fragment?, hinner.isFragmentStart_eq] at hbegins
      simp [hinner.isMessageStart_eq, of_decide_eq_true hbegins]

/-- The reader of a framed run meets no id but those of markers and of the message. -/
theorem Framed.id_word (h : Framed s config items p g) (hs : s.Accepted)
    (hfits : StreamFits s items) (hinner : s.Undivided words)
    (hlt : p.consumer.next + s.idDistance < p.ring.head.words) :
    p.ring.word (p.consumer.next + s.idDistance) = -1 ∨
      p.ring.word (p.consumer.next + s.idDistance) = 0 := by
  have hmeasured := h.reachable.measured hs
  obtain ⟨hlays, hattends⟩ := h.tracks hs hfits
  have hnext := hattends.next
  have hunread : g.read < g.published := by
    have hle := hlays.read_le
    have hhead := hlays.published
    rcases Nat.lt_or_eq_of_le hle with hlt' | heq
    · exact hlt'
    · rw [hnext, heq, hhead] at hlt
      omega
  obtain ⟨piece, hpiece⟩ := hlays.exists_piece (Nat.lt_of_lt_of_le hunread hlays.published_le)
  have hguides := hlays.guides_none hmeasured hfits hpiece hunread (Nat.le_succ _)
  rw [← hnext] at hguides
  cases piece with
  | marker => exact .inl hguides.id
  | fragment m index d =>
    obtain ⟨hitem, hmember⟩ := mem_of_piecesOf hpiece
    obtain ⟨f, hf, -⟩ := (hfits m hitem).begins hs.laidOut hmember
    have hid := (hguides f hf).id
    rw [hinner.fragment?_eq] at hf
    split at hf <;> cases hf
    exact .inr (hid rfl)

theorem Framed.run_rescript (h : Framed s config items p g) (hs : s.Accepted)
    (hfits : StreamFits s items) (hshifted : s.Shifted t words) {command : Command}
    (hframed : command.isFramed = true) :
    (p.rescript t).run command = rescripting t (p.run command) := by
  have hschema : p.schema = s := (h.reachable.follows hs.compiled).1
  have hoffset := hshifted.offset
  cases command with
  | openAt cursor bytes =>
    exact congrArg (replying .flag)
      (openAt_rescript hshifted.inner hshifted.outer hoffset hschema cursor bytes)
  | write loc value => exact congrArg (replying fun _ => .done) (write_rescript t p loc value)
  | publish => exact congrArg (Prod.mk _) (publish_rescript t p)
  | publishMarker => exact congrArg answering (publishMarker_rescript (hschema.symm ▸ hoffset))
  | read =>
    exact congrArg (replying .flag) (read_rescript hshifted.inner hshifted.outer hoffset hschema
      (h.reachable.isMessageDue hs.compiled hshifted.inner) (h.reachable.ordered hs).seenHead
      (h.id_word hs hfits hshifted.inner))
  | releaseNow => exact congrArg (Prod.mk _) (releaseNow_rescript t p)
  | storeAhead | claim | rebaseWrites | roomFor | isVisible | readMessage | readContinuation
  | rebaseReads | skip | reset => cases hframed

theorem Framed.left_lt (h : Framed s config items p g) (hs : s.Accepted)
    (hfits : StreamFits s items) (hinner : s.Undivided words) :
    ∀ position ∈ g.left, position < s.size := by
  intro position hposition
  obtain ⟨hlays, -⟩ := h.tracks hs hfits
  obtain ⟨opened, left, published, read⟩ := g
  cases hlays.works with
  | idle => cases hposition
  | filling hpiece hf _ _ _ _ hleft =>
    obtain ⟨-, hlt, -⟩ := Schema.mem_fieldsOf.1 (hleft position hposition)
    rw [hinner.fragment?_eq] at hf
    split at hf <;> cases hf
    simpa [Schema.whole] using hlt

end Framing

section Steps

variable {s t : Schema} {words : Int} {items : List StreamItem} {g : Progress} {command : Command}
  {reply : Except Fault Reply}

theorem isFramed_of_framedStep {schema : Schema} {g' : Progress}
    (h : FramedStep schema items g command reply g') : command.isFramed = true := by
  cases h <;> rfl

theorem mem_left_wrapped {position : Nat} :
    position ∈ g.wrapped.left ↔ ∃ i ∈ g.left, i + 1 = position := List.mem_map

theorem wrapped_erase (position : Nat) :
    ({ g with left := g.left.erase position } : Progress).wrapped =
      { g.wrapped with left := g.wrapped.left.erase (position + 1) } := by
  have hmap : (g.left.erase position).map (· + 1) = (g.left.map (· + 1)).erase (position + 1) :=
    List.map_erase (fun _ _ h => Nat.succ.inj h) g.left
  exact congrArg (fun left => ({ g with left } : Progress)) hmap

theorem FramedStep.wrapped {g' : Progress} (hshifted : s.Shifted t words)
    (hlt : ∀ position ∈ g.left, position < s.size) (h : FramedStep s items g command reply g') :
    FramedStep t (items.map StreamItem.wrapped) g.wrapped command reply g'.wrapped := by
  have hfilled : g.left = [] → g.wrapped.left = [] := fun h => congrArg (List.map (· + 1)) h
  cases h with
  | @opens m index d f bytes hnext hleft hf =>
    rw [hshifted.inner.fragment?_eq] at hf
    split at hf <;> cases hf
    rename_i hcursor
    have houter : t.fragment? d.cursor = some (t.whole words) := by
      rw [hshifted.outer.fragment?_eq, if_pos hcursor]
    have hleft' : ({ g with
        opened := g.opened + 1, left := s.fieldsOf (s.whole words) } : Progress).wrapped =
        { g.wrapped with
          opened := g.wrapped.opened + 1, left := t.fieldsOf (t.whole words) } := by
      rw [hshifted.fields]
      rfl
    rw [hleft']
    exact FramedStep.opens (d := d.wrapped) bytes (piecesOf_wrapped_of hnext) (hfilled hleft) houter
  | refusesToOpen cursor bytes hrefused => exact .refusesToOpen cursor bytes hrefused
  | writes position hopened hpiece hleft hloc =>
    rw [← hshifted.locator position (hlt position hleft)] at hloc
    rw [wrapped_erase]
    exact FramedStep.writes (g := g.wrapped) (position + 1) hopened (piecesOf_wrapped_of hpiece)
      (mem_left_wrapped.2 ⟨position, hleft, rfl⟩) hloc
  | refusesToWrite position hopened hpiece hleft hloc =>
    rw [← hshifted.locator position (hlt position hleft)] at hloc
    exact FramedStep.refusesToWrite (g := g.wrapped) (position + 1) hopened
      (piecesOf_wrapped_of hpiece) (mem_left_wrapped.2 ⟨position, hleft, rfl⟩) hloc
  | publishes hleft => exact .publishes (hfilled hleft)
  | marks hnext hleft => exact .marks (piecesOf_wrapped_of hnext) (hfilled hleft)
  | refusesToMark hleft => exact .refusesToMark (hfilled hleft)
  | reads => exact .reads
  | refusesToRead hrefused => exact .refusesToRead hrefused
  | releases => exact .releases

theorem exists_framedStep_of_wrapped {g'' : Progress} (hshifted : s.Shifted t words)
    (hlt : ∀ position ∈ g.left, position < s.size)
    (h : FramedStep t (items.map StreamItem.wrapped) g.wrapped command reply g'') :
    ∃ g', g'' = g'.wrapped ∧ FramedStep s items g command reply g' := by
  have hfilled : g.wrapped.left = [] → g.left = [] := List.map_eq_nil_iff.1
  cases h with
  | opens bytes hnext hleft hf =>
    obtain ⟨m, d, hinside, rfl, rfl⟩ := exists_fragment_of_wrapped hnext
    rw [hshifted.outer.fragment?_eq] at hf
    split at hf <;> cases hf
    rename_i hcursor
    have hinner : s.fragment? d.cursor = some (s.whole words) := by
      rw [hshifted.inner.fragment?_eq]
      exact if_pos hcursor
    refine ⟨{ g with opened := g.opened + 1, left := s.fieldsOf (s.whole words) }, ?_,
      FramedStep.opens (d := d) bytes hinside (hfilled hleft) hinner⟩
    rw [hshifted.fields]
    rfl
  | refusesToOpen cursor bytes hrefused => exact ⟨g, rfl, .refusesToOpen cursor bytes hrefused⟩
  | writes position hopened hpiece hleft hloc =>
    obtain ⟨m, d, hinside, rfl, rfl⟩ := exists_fragment_of_wrapped hpiece
    obtain ⟨i, hi, rfl⟩ := mem_left_wrapped.1 hleft
    rw [hshifted.locator i (hlt i hi)] at hloc
    exact ⟨_, (wrapped_erase i).symm, .writes (d := d) i hopened hinside hi hloc⟩
  | refusesToWrite position hopened hpiece hleft hloc =>
    obtain ⟨m, d, hinside, rfl, rfl⟩ := exists_fragment_of_wrapped hpiece
    obtain ⟨i, hi, rfl⟩ := mem_left_wrapped.1 hleft
    rw [hshifted.locator i (hlt i hi)] at hloc
    exact ⟨g, rfl, .refusesToWrite (d := d) i hopened hinside hi hloc⟩
  | publishes hleft => exact ⟨{ g with published := g.opened }, rfl, .publishes (hfilled hleft)⟩
  | marks hnext hleft =>
    exact ⟨{ g with opened := g.opened + 1, published := g.opened + 1 }, rfl,
      .marks (marker_of_wrapped hnext) (hfilled hleft)⟩
  | refusesToMark hleft => exact ⟨g, rfl, .refusesToMark (hfilled hleft)⟩
  | reads => exact ⟨{ g with read := g.read + 1 }, rfl, .reads⟩
  | refusesToRead hrefused => exact ⟨g, rfl, .refusesToRead hrefused⟩
  | releases => exact ⟨g, rfl, .releases⟩

end Steps

section Runs

variable {s t : Schema} {words : Int} {config : Config} {items : List StreamItem} {p : Pipe}
  {g : Progress} {commands : List Command}

/-- A framed history of the one pipe is one of the other, with the same answers, and the pipes hold
the same after each of its commands. By induction over the commands, with the framed run behind them
as invariant. -/
theorem FramedHistory.wrapped (hs : s.Accepted) (hfits : StreamFits s items)
    (hshifted : s.Shifted t words) (hframed : Framed s config items p g) {g' : Progress}
    (h : FramedHistory s items p g commands g') :
    FramedHistory t (items.map StreamItem.wrapped) (p.rescript t) g.wrapped commands g'.wrapped ∧
      replies (p.rescript t) commands = replies p commands ∧
      ∀ k, (p.runAll (commands.take k)).Alongside ((p.rescript t).runAll (commands.take k)) := by
  have halongside : ∀ {p : Pipe} {g : Progress}, Framed s config items p g →
      p.Alongside (p.rescript t) := fun hframed =>
    alongside_rescript t (hframed.reachable.isMessageDue hs.compiled hshifted.inner)
  induction h with
  | done p g => exact ⟨.done _ _, rfl, fun k => by simpa [runAll] using halongside hframed⟩
  | @step p g g' g'' command rest hstep _ ih =>
    have hrun := hframed.run_rescript hs hfits hshifted (isFramed_of_framedStep hstep)
    obtain ⟨hhistory, hreplies, hstates⟩ := ih (hframed.step hstep)
    have hnext : ((p.rescript t).run command).2 = (p.run command).2.rescript t :=
      congrArg Prod.snd hrun
    have hreply : ((p.rescript t).run command).1 = (p.run command).1 := by
      rw [hrun]
      rfl
    refine ⟨.step ?_ (hnext ▸ hhistory), ?_, fun k => ?_⟩
    · rw [hreply]
      exact hstep.wrapped hshifted (hframed.left_lt hs hfits hshifted.inner)
    · rw [replies, replies, hreply, hnext, hreplies]
    · cases k with
      | zero => exact halongside hframed
      | succ k =>
        have hlater := hstates k
        rw [← hnext] at hlater
        exact hlater

theorem FramedHistory.unwrapped (hs : s.Accepted) (hfits : StreamFits s items)
    (hshifted : s.Shifted t words) (hframed : Framed s config items p g) {g'' : Progress}
    (h : FramedHistory t (items.map StreamItem.wrapped) (p.rescript t) g.wrapped commands g'') :
    ∃ g', g'' = g'.wrapped ∧ FramedHistory s items p g commands g' := by
  induction commands generalizing p g with
  | nil =>
    cases h
    exact ⟨g, rfl, .done p g⟩
  | cons command rest ih =>
    cases h with
    | step hstep hrest =>
      have hrun := hframed.run_rescript hs hfits hshifted (isFramed_of_framedStep hstep)
      rw [hrun] at hstep hrest
      obtain ⟨g', rfl, hback⟩ := exists_framedStep_of_wrapped hshifted
        (hframed.left_lt hs hfits hshifted.inner) hstep
      obtain ⟨last, rfl, hhistory⟩ := ih (hframed.step hback) hrest
      exact ⟨last, rfl, .step hback hhistory⟩

theorem fresh_rescript (hshifted : s.Shifted t words) (config : Config) :
    (fresh s config).rescript t = fresh t config := by
  unfold fresh
  rw [hshifted.inner.maxFragmentDepth_eq, hshifted.outer.maxFragmentDepth_eq]
  rfl

end Runs

/-- A list of fields compiles, alone and between the brackets of a template, and the two schemas
have the same tables but for the brackets. A framed history of a pipe of the one is a framed history
of a pipe of the other: the answers are the same, and after any number of commands the pipes hold
the same and the same is read from them. -/
theorem framed_wrapped {tokens : List Token} {opening closing : Token} {offset : Int}
    (names names' : List String) (hne : tokens ≠ [])
    (hknown : ∀ token ∈ tokens, token.kind?.isSome = true)
    (hplain : ∀ token ∈ tokens, token.isStructural = false)
    (hopens : opening.role = .opening ⟨true, false⟩)
    (hcloses : closing.role = .closing ⟨true, false⟩) (hoffset : 0 ≤ offset) :
    ∃ s t, Schema.ofScript tokens names offset = .ok s ∧
      Schema.ofScript (opening :: (tokens ++ [closing])) names' offset = .ok t ∧ t.Wraps s ∧
      (s.Accepted → ∀ (config : Config) (items : List StreamItem), config.validate s = .ok () →
        StreamFits s items → StreamFits t (items.map StreamItem.wrapped) ∧ ∀ commands,
          (∀ g', FramedCommands t config (items.map StreamItem.wrapped) commands g' →
            ∃ g, g' = g.wrapped ∧ FramedCommands s config items commands g) ∧
          ∀ g, FramedCommands s config items commands g →
            FramedCommands t config (items.map StreamItem.wrapped) commands g.wrapped ∧
              replies (fresh t config) commands = replies (fresh s config) commands ∧
              ∀ k, ((fresh s config).runAll (commands.take k)).Alongside
                ((fresh t config).runAll (commands.take k))) := by
  have hscript : Schema.nameTokens tokens names ≠ [] := by
    intro hnil
    rw [← Schema.map_fst_nameTokens tokens names, hnil] at hne
    exact hne rfl
  obtain ⟨t, ht, rfl, hbrackets⟩ :=
    Schema.exists_brackets names names' offset hknown hplain hopens hcloses
  have hshifted := hbrackets.shifted hscript
  refine ⟨_, t, Schema.ofScript_of_plain hne hknown hplain, ht, hbrackets.wraps hscript hoffset,
    fun hs config items hvalid hfits => ⟨hbrackets.fits_wrapped hscript hfits, fun commands => ?_⟩⟩
  have hbuilt : Framed _ config items _ ⟨0, [], 0, 0⟩ :=
    .built (build_eq_fresh (by rw [hvalid]; rfl))
  unfold FramedCommands
  rw [← fresh_rescript hshifted]
  exact ⟨fun g' h => h.unwrapped hs hfits hshifted hbuilt,
    fun g h => h.wrapped hs hfits hshifted hbuilt⟩

def tickText : MessageData := ⟨0, [⟨0, fun _ => .bytes [72, 105]⟩]⟩

theorem fits_tickText :
    StreamFits (Schema.tick 1 .byteArray) [.message tickText, .endOfStream] := by
  intro m hm
  obtain rfl : m = tickText := by
    simpa using hm
  refine ⟨by decide, ⟨.flat [.build (.value .byteArray false) 0 0] (by decide), by decide, rfl⟩,
    fun d hd => ?_⟩
  obtain rfl := List.mem_singleton.1 hd
  exact .of_fields (f := ⟨0, 5, 1, 0, true⟩) (by decide) (by decide) (by decide)

theorem framed_wrapped_tick :
    ∃ s t commands, Schema.ofScript [.build (.value .byteArray false) 0 0] ["Value"] 1 = .ok s ∧
      Schema.ofScript [.build .group Token.templateBit 0, .build (.value .byteArray false) 0 0,
        .build .group (Token.templateBit + Token.closeBit) 1] [] 1 = .ok t ∧ t.Wraps s ∧
      FramedCommands s ⟨⟨4, 3⟩, 1⟩ [.message tickText, .endOfStream] commands ⟨2, [], 2, 2⟩ ∧
      FramedCommands t ⟨⟨4, 3⟩, 1⟩ [.message tickText.wrapped, .endOfStream] commands
        ⟨2, [], 2, 2⟩ ∧
      replies (fresh t ⟨⟨4, 3⟩, 1⟩) commands = replies (fresh s ⟨⟨4, 3⟩, 1⟩) commands := by
  have hplain : ∀ token ∈ [Token.build (.value .byteArray false) 0 0],
      token.isStructural = false := by decide
  have hopens : (Token.build .group Token.templateBit 0).role = .opening ⟨true, false⟩ := by decide
  have hcloses : (Token.build .group (Token.templateBit + Token.closeBit) 1).role =
      .closing ⟨true, false⟩ := by decide
  obtain ⟨s, t, hs, ht, hwraps, hruns⟩ := framed_wrapped ["Value"] [] (List.cons_ne_nil _ _)
    (by decide) hplain hopens hcloses (show (0 : Int) ≤ 1 by decide)
  obtain rfl : Schema.tick 1 .byteArray = s := Except.ok.inj (Eq.trans rfl hs)
  have hbuilt : Framed (Schema.tick 1 .byteArray) ⟨⟨4, 3⟩, 1⟩ [.message tickText, .endOfStream]
      (fresh (Schema.tick 1 .byteArray) ⟨⟨4, 3⟩, 1⟩) ⟨0, [], 0, 0⟩ :=
    .built (build_eq_fresh (by decide +kernel))
  have hwritten := (hbuilt.opens 2 rfl rfl (f := ⟨0, 5, 1, 0, true⟩) (by decide)
    (eq_ok_of_toOption (by decide +kernel))).writes 0 rfl rfl (by decide)
    (show (Schema.tick 1 .byteArray).locator? 0 = some ⟨0, 2⟩ by decide)
    (eq_ok_of_toOption (by decide +kernel))
  have hread := ((hwritten.marks rfl rfl (Prod.ext (by decide +kernel) rfl)).reads
    (eq_ok_of_toOption (by decide +kernel))).reads (eq_ok_of_toOption (by decide +kernel))
  obtain ⟨-, commands, hcommands, -⟩ := framed_iff.1 hread
  obtain ⟨-, hruns⟩ := hruns ⟨.script hs, by decide, by decide, by decide⟩ ⟨⟨4, 3⟩, 1⟩ _
    (ok_of_toOption (by decide +kernel)) fits_tickText
  obtain ⟨hcommands', hreplies, -⟩ := (hruns commands).2 _ hcommands
  exact ⟨_, t, commands, hs, ht, hwraps, hcommands, hcommands', hreplies⟩

end Pipe

end FragmentPipe

import FragmentPipe.Proofs.Reader.Course
import FragmentPipe.Proofs.Writer.Values

set_option autoImplicit false

/-!
# Streams of messages

What a producer is to write is a list of items, each a message or an end of the stream. A message is
given by its fragments with the values of their fields. It is well formed if its fragments are those
that it unfolds to by the sequence lengths among its own values. The items together are a row of
pieces, the fragments and the markers, and this row is what goes through the ring.
-/
namespace FragmentPipe

structure FragmentData where
  cursor : Nat
  value : Nat → Value

structure MessageData where
  id : Nat
  fragments : List FragmentData

inductive StreamItem where
  | endOfStream
  | message (m : MessageData)

/-- How many times the body of a sequence with this length is repeated. -/
def Value.count : Value → Int
  | .word value => value.toInt
  | _ => 0

def Schema.fieldsOf (s : Schema) (f : Fragment) : List Nat :=
  (List.range' f.start f.tokens).filter fun position =>
    s.entries[position]?.any fun e => e.token.shape?.isSome

theorem Schema.mem_fieldsOf {s : Schema} {f : Fragment} {position : Nat} :
    position ∈ s.fieldsOf f ↔ f.start ≤ position ∧ position < f.start + f.tokens ∧
      ∃ e shape, s.entries[position]? = some e ∧ e.token.shape? = some shape := by
  unfold fieldsOf
  rw [List.mem_filter, List.mem_range'_1]
  cases he : s.entries[position]? with
  | none => simp
  | some e => simp [Option.isSome_iff_exists, and_assoc]

/-- The locator leads to a field of that shape, told by its position, in the fragment that begins at
the cursor. -/
def Schema.HasField (s : Schema) (cursor position : Nat) (loc : Locator) (shape : Shape) : Prop :=
  ∃ f, s.fragment? cursor = some f ∧ position ∈ s.fieldsOf f ∧ s.locator? position = some loc ∧
    (s.entries[position]?.bind fun e => e.token.shape?) = some shape

theorem Schema.HasField.field {s : Schema} {cursor position : Nat} {loc : Locator} {shape : Shape}
    (hs : s.Measured) (h : s.HasField cursor position loc shape) :
    ∃ f e offset, s.fragment? cursor = some f ∧ s.Field f position e offset ∧
      e.token.shape? = some shape ∧ loc = ⟨f.depth, offset⟩ := by
  obtain ⟨f, hf, hposition, hloc, hshape⟩ := h
  obtain ⟨hle, hlt, e, -, he, -⟩ := Schema.mem_fieldsOf.1 hposition
  obtain ⟨offset, hfield⟩ := hs.exists_field hf hle hlt he
  rw [hfield.entry, Option.bind_some] at hshape
  rw [Schema.locator?, hfield.entry, Option.bind_some, hfield.locator] at hloc
  exact ⟨f, e, offset, hf, hfield, hshape, (Option.some.inj hloc).symm⟩

namespace FragmentData

def length (s : Schema) (d : FragmentData) : Nat :=
  match (s.fragment? d.cursor).bind s.lastOf? with
  | some (last, final) => if final.token.isLength then (d.value last).count.toNat else 0
  | none => 0

def bytesAt (d : FragmentData) : List Nat → Nat
  | [] => 0
  | position :: rest => (d.value position).byteLength + d.bytesAt rest

structure Fits (s : Schema) (d : FragmentData) : Prop where
  shape : ∀ f position e shape, s.fragment? d.cursor = some f → f.start ≤ position →
    position < f.start + f.tokens → s.entries[position]? = some e → e.token.shape? = some shape →
      (d.value position).shape = shape
  length : ∀ f last e, s.fragment? d.cursor = some f → s.lastOf? f = some (last, e) →
    e.token.isLength = true → 0 ≤ (d.value last).count

theorem bytesAt_erase (d : FragmentData) {positions : List Nat} {position : Nat}
    (h : position ∈ positions) :
    d.bytesAt (positions.erase position) + (d.value position).byteLength = d.bytesAt positions := by
  induction positions with
  | nil => cases h
  | cons first rest ih =>
    by_cases hfirst : first = position
    · subst hfirst
      rw [List.erase_cons_head, bytesAt, Nat.add_comm]
    · have hrest : position ∈ rest := by
        rcases List.mem_cons.1 h with rfl | hrest
        · exact absurd rfl hfirst
        · exact hrest
      rw [List.erase_cons_tail (by simpa using hfirst), bytesAt, bytesAt, Nat.add_assoc, ih hrest]

theorem Fits.of_fields {s : Schema} {d : FragmentData} {f : Fragment}
    (hf : s.fragment? d.cursor = some f)
    (hshape : ∀ position ∈ s.fieldsOf f,
      (s.entries[position]?.bind fun e => e.token.shape?) = some (d.value position).shape)
    (hlength : ∀ found ∈ s.lastOf? f, found.2.token.isLength = true →
      0 ≤ (d.value found.1).count) : d.Fits s := by
  refine ⟨fun f' position e shape hf' hle hlt he htoken => ?_,
    fun f' last e hf' hlast hcounts => ?_⟩
  · rw [hf] at hf'
    cases hf'
    have hsame := hshape position (Schema.mem_fieldsOf.2 ⟨hle, hlt, e, shape, he, htoken⟩)
    rw [he, Option.bind_some, htoken] at hsame
    exact (Option.some.inj hsame).symm
  · rw [hf] at hf'
    cases hf'
    exact hlength (last, e) hlast hcounts

end FragmentData

namespace MessageData

def lengths (s : Schema) (m : MessageData) (i : Nat) : Nat :=
  (m.fragments[i]?.map (FragmentData.length s)).getD 0

/-- The fragments are those that the message unfolds to by its own lengths. -/
structure Fits (s : Schema) (m : MessageData) : Prop where
  starts : s.isMessageStart m.id = true
  unfolds : ∃ script : Script, script.tokens = s.tokens ∧
    m.fragments.map FragmentData.cursor = script.unfold (m.lengths s) m.id
  fragments : ∀ d ∈ m.fragments, d.Fits s

end MessageData

def StreamFits (s : Schema) (items : List StreamItem) : Prop :=
  ∀ m, StreamItem.message m ∈ items → m.Fits s

/-- A marker, or the fragment of the given number in a message. -/
inductive Piece where
  | marker
  | fragment (m : MessageData) (index : Nat) (d : FragmentData)

def StreamItem.pieces : StreamItem → List Piece
  | .endOfStream => [.marker]
  | .message m => m.fragments.mapIdx fun index d => .fragment m index d

def piecesOf (items : List StreamItem) : List Piece := items.flatMap StreamItem.pieces

namespace Piece

def index : Piece → Nat
  | .marker => 0
  | .fragment _ index _ => index

def Ends : Piece → Prop
  | .marker => True
  | .fragment m index _ => index + 1 = m.fragments.length

inductive Precedes : Piece → Piece → Prop where
  | item {p q : Piece} (hends : p.Ends) (hbegins : q.index = 0) : Precedes p q
  | message (m : MessageData) (index : Nat) (d e : FragmentData) :
      Precedes (.fragment m index d) (.fragment m (index + 1) e)

end Piece

section Pieces

variable {s : Schema} {items : List StreamItem}

theorem mem_of_piecesOf {k : Nat} {m : MessageData} {index : Nat} {d : FragmentData}
    (h : (piecesOf items)[k]? = some (.fragment m index d)) :
    StreamItem.message m ∈ items ∧ m.fragments[index]? = some d := by
  obtain ⟨item, hitem, hpiece⟩ := List.mem_flatMap.1 (List.mem_of_getElem? h)
  cases item with
  | endOfStream => simp [StreamItem.pieces] at hpiece
  | message m' =>
    obtain ⟨i, hi, heq⟩ := List.mem_mapIdx.1 hpiece
    cases heq
    exact ⟨hitem, List.getElem?_eq_getElem hi⟩

/-- The fragments visited by a reader of a message are its own: the first begins it, and no other
begins one. -/
theorem Schema.Course.begins {lengths : Nat → Nat} {id : Nat} {visited : List Nat} {place : Place}
    (h : s.Course lengths id visited place) {i cursor : Nat} (hi : visited[i]? = some cursor) :
    (∃ f, s.fragment? cursor = some f) ∧ (i = 0 → cursor = id) ∧
      (0 < i → s.isMessageStart cursor = false) := by
  induction h with
  | begin => simp at hi
  | @visit visited place f hbefore hf hinside ih =>
    by_cases hlt : i < visited.length
    · rw [List.getElem?_append_left hlt] at hi
      exact ih hi
    · rw [List.getElem?_append_right (Nat.le_of_not_lt hlt)] at hi
      obtain ⟨hzero, rfl⟩ : i - visited.length = 0 ∧ place.position = cursor := by
        cases hsub : i - visited.length with
        | zero =>
          rw [hsub] at hi
          exact ⟨rfl, Option.some.inj hi⟩
        | succ j =>
          rw [hsub] at hi
          simp at hi
      have hlength : i = visited.length := by omega
      refine ⟨⟨f, hf⟩, fun hfirst => ?_, fun hpos => ?_⟩
      · have hnil : visited = [] := List.length_eq_zero_iff.1 (by omega)
        rw [hbefore.place_of_nil hnil]
      · rcases hinside with rfl | hnot
        · simp at hlength
          omega
        · exact hnot

theorem MessageData.Fits.fragments_ne_nil (hs : s.LaidOut) {m : MessageData} (h : m.Fits s) :
    m.fragments ≠ [] := by
  obtain ⟨script, hscript, hunfold⟩ := h.unfolds
  obtain ⟨last, hcourse, -, hmoved⟩ := Schema.course_script hs (m.lengths s) hscript h.starts
  intro hnil
  rw [← hunfold, hnil] at hcourse
  rw [hcourse.place_of_nil rfl] at hmoved
  exact absurd hmoved (Nat.lt_irrefl _)

theorem MessageData.Fits.begins (hs : s.LaidOut) {m : MessageData} (h : m.Fits s) {i : Nat}
    {d : FragmentData} (hi : m.fragments[i]? = some d) :
    ∃ f, s.fragment? d.cursor = some f ∧ f.start = d.cursor ∧
      (i = 0 → d.cursor = m.id) ∧ f.startsMessage = decide (i = 0) := by
  obtain ⟨script, hscript, hunfold⟩ := h.unfolds
  obtain ⟨last, hcourse, -, -⟩ := Schema.course_script hs (m.lengths s) hscript h.starts
  rw [← hunfold] at hcourse
  obtain ⟨⟨f, hf⟩, hfirst, hlater⟩ := hcourse.begins
    (show (m.fragments.map FragmentData.cursor)[i]? = some d.cursor by
      rw [List.getElem?_map, hi]
      rfl)
  obtain ⟨hstart, -⟩ := Schema.fragment?_eq_some hf
  have hstart' : d.cursor = f.start := Int.ofNat.inj hstart
  refine ⟨f, hf, hstart'.symm, hfirst, ?_⟩
  rw [Schema.startsMessage_of_fragment? hf, ← hstart']
  by_cases hzero : i = 0
  · rw [hfirst hzero, h.starts]
    simp [hzero]
  · rw [hlater (Nat.pos_of_ne_zero hzero)]
    simp [hzero]

theorem StreamItem.pieces_ne_nil (hs : s.LaidOut) {item : StreamItem}
    (h : ∀ m, item = .message m → m.Fits s) : item.pieces ≠ [] := by
  cases item with
  | endOfStream => simp [pieces]
  | message m =>
    intro hnil
    have hlength := congrArg List.length hnil
    simp only [pieces, List.length_mapIdx, List.length_nil] at hlength
    exact (h m rfl).fragments_ne_nil hs (List.length_eq_zero_iff.1 hlength)

theorem StreamItem.index_of_pieces {item : StreamItem} {k : Nat} {piece : Piece}
    (h : item.pieces[k]? = some piece) : piece.index = k := by
  cases item with
  | endOfStream =>
    obtain ⟨hk, hpiece⟩ := List.getElem?_eq_some_iff.1 h
    simp only [pieces, List.length_cons, List.length_nil] at hk
    obtain rfl : k = 0 := by omega
    cases hpiece
    rfl
  | message m =>
    simp only [pieces, List.getElem?_mapIdx, Option.map_eq_some_iff] at h
    obtain ⟨d, -, rfl⟩ := h
    rfl

theorem StreamItem.ends_of_pieces {item : StreamItem} {k : Nat} {piece : Piece}
    (h : item.pieces[k]? = some piece) (hlast : k + 1 = item.pieces.length) : piece.Ends := by
  cases item with
  | endOfStream =>
    have hmem := List.mem_of_getElem? h
    simp only [pieces, List.mem_singleton] at hmem
    rw [hmem]
    trivial
  | message m =>
    simp only [pieces, List.getElem?_mapIdx, Option.map_eq_some_iff] at h
    obtain ⟨d, -, rfl⟩ := h
    rwa [pieces, List.length_mapIdx] at hlast

theorem StreamItem.precedes_of_pieces {item : StreamItem} {k : Nat} {p q : Piece}
    (hp : item.pieces[k]? = some p) (hq : item.pieces[k + 1]? = some q) : p.Precedes q := by
  cases item with
  | endOfStream => simp [pieces] at hq
  | message m =>
    simp only [pieces, List.getElem?_mapIdx, Option.map_eq_some_iff] at hp hq
    obtain ⟨d, -, rfl⟩ := hp
    obtain ⟨e, -, rfl⟩ := hq
    exact .message m k d e

theorem index_of_head (hs : s.LaidOut) (hfits : StreamFits s items) {piece : Piece}
    (h : (piecesOf items)[0]? = some piece) : piece.index = 0 := by
  cases items with
  | nil => simp [piecesOf] at h
  | cons item rest =>
    have hne := item.pieces_ne_nil hs fun m heq => hfits m (heq ▸ List.mem_cons_self)
    rw [piecesOf, List.flatMap_cons,
      List.getElem?_append_left (List.length_pos_iff.2 hne)] at h
    exact StreamItem.index_of_pieces h

/-- In a stream a piece continues the message of the one before it, or begins an item behind a
complete one. -/
theorem precedes_of_succ (hs : s.LaidOut) (hfits : StreamFits s items) {k : Nat} {p q : Piece}
    (hp : (piecesOf items)[k]? = some p) (hq : (piecesOf items)[k + 1]? = some q) :
    p.Precedes q := by
  induction items generalizing k with
  | nil => simp [piecesOf] at hp
  | cons item rest ih =>
    have hrest : StreamFits s rest := fun m hm => hfits m (List.mem_cons_of_mem _ hm)
    rw [piecesOf, List.flatMap_cons] at hp hq
    by_cases hnext : k + 1 < item.pieces.length
    · rw [List.getElem?_append_left (by omega)] at hp
      rw [List.getElem?_append_left hnext] at hq
      exact StreamItem.precedes_of_pieces hp hq
    · by_cases hlast : k < item.pieces.length
      · rw [List.getElem?_append_left hlast] at hp
        rw [List.getElem?_append_right (by omega), show k + 1 - item.pieces.length = 0 by omega]
          at hq
        exact .item (StreamItem.ends_of_pieces hp (by omega)) (index_of_head hs hrest hq)
      · rw [List.getElem?_append_right (by omega)] at hp hq
        rw [show k + 1 - item.pieces.length = k - item.pieces.length + 1 by omega] at hq
        exact ih hrest hp hq

end Pieces

end FragmentPipe

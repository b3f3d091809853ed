import FragmentPipe.Proofs.Stream.Inspected
import FragmentPipe.Proofs.Stream.Lodged
import FragmentPipe.Proofs.Stream.Spaced

set_option autoImplicit false

namespace FragmentPipe

def Progress.leftIn (g : Progress) (k : Nat) : List Nat := if k + 1 = g.opened then g.left else []

theorem Progress.leftIn_of_nil {g : Progress} (h : g.left = []) (k : Nat) : g.leftIn k = [] := by
  unfold leftIn
  split
  · exact h
  · rfl

def Progress.account (g : Progress) (s : Schema) (l : List Piece) (gaps : Nat → Nat) : Account :=
  fun k high complete r piece =>
    r.Holds s (placeAt s l gaps k) (baseAt s l k piece) high (g.leftIn k) complete piece

theorem row_placeAt (s : Schema) (l : List Piece) (gaps : Nat → Nat) :
    Row s l (placeAt s l gaps) where
  mono := fun _ _ hle => placeAt_mono s l gaps hle
  apart := fun j k piece hpiece hlt => by
    have hend := end_le_of_lt s gaps hpiece hlt
    rw [words_placeAt s l gaps k, rawBefore]
    omega

theorem Progress.local_account {s : Schema} (hs : s.Measured) (g : Progress) (l : List Piece)
    (gaps : Nat → Nat) :
    (g.account s l gaps).Local s (placeAt s l gaps) fun _ piece => (piece.extent s).bytes where
  imp := fun hheld hmore himp => (hheld.of_keeps hs (.of_eq rfl rfl) hmore).imp himp
  keeps := fun hheld hkeeps => hheld.of_keeps hs hkeeps (Nat.le_refl _)
  sealed := fun hheld hf hkeeps htrailer => by
    intro f' hf'
    rw [hf] at hf'
    cases hf'
    refine (hheld _ hf).seal hs hf hkeeps (htrailer.trans ?_)
    rw [Piece.extent, hf]

theorem Progress.account_congr {s : Schema} {l : List Piece} {gaps : Nat → Nat} {g g' : Progress}
    {k : Nat} (h : g'.leftIn k = g.leftIn k) : g'.account s l gaps k = g.account s l gaps k := by
  unfold account
  rw [h]

namespace Pipe

/-- The producer stands behind the pieces that were opened and the raw words claimed since: either
all of the pieces are complete, or the last is a fragment that is being filled. -/
inductive Works (s : Schema) (l : List Piece) (gaps : Nat → Nat) (p : Pipe) :
    Nat → List Nat → Nat → Prop where
  | idle {k claimed : Nat}
      (hhead : p.producer.head = markAt s l k + .ofWords (rawBefore gaps k + claimed))
      (hpending : p.producer.pending = none) : Works s l gaps p k [] claimed
  | filling {k : Nat} {m : MessageData} {index : Nat} {d : FragmentData} {f : Fragment}
      {left : List Nat} (hpiece : l[k]? = some (.fragment m index d))
      (hf : s.fragment? d.cursor = some f)
      (hwords : p.producer.head.words = (placeAt s l gaps k).words + f.words)
      (hbytes : p.producer.head.bytes + d.bytesAt left = (markAt s l (k + 1)).bytes)
      (hlow : (markAt s l k).bytes ≤ p.producer.head.bytes)
      (hstart : p.producer.starts[f.depth]? = some (placeAt s l gaps k).words)
      (hleft : ∀ position ∈ left, position ∈ s.fieldsOf f)
      (hpending : p.producer.pending =
        some ⟨(placeAt s l gaps k).words + f.words - 1, (markAt s l k).bytes⟩) :
      Works s l gaps p (k + 1) left 0

/-- The state of the producer and of the ring in a run with raw words. -/
structure Lays (s : Schema) (l : List Piece) (gaps : Nat → Nat) (p : Pipe) (g : Progress)
    (w : Raw) : Prop extends
    p.Lodges s l (placeAt s l gaps) (g.account s l gaps) (w.first g.read) g.opened where
  read_le : g.read ≤ g.published
  published_le : g.published ≤ g.opened
  claimed_le : w.claimed ≤ gaps g.opened
  granted : p.producer.head.words + w.granted ≤ p.ring.tail.words + p.ring.capacity.words
  bytes : p.ring.head.bytes = (markAt s l g.published).bytes
  below : p.ring.head.words ≤ (placeAt s l gaps g.published).words
  above : ∀ k piece, l[k]? = some piece → k < g.published →
    (placeAt s l gaps k + piece.extent s).words ≤ p.ring.head.words
  settled : g.published = g.opened → p.producer.pending = none
  works : p.Works s l gaps g.opened g.left w.claimed

section Work

variable {s : Schema} {l : List Piece} {gaps : Nat → Nat} {p q : Pipe} {g : Progress} {w : Raw}
  {k claimed : Nat} {left : List Nat} {piece : Piece}

theorem Works.words (h : p.Works s l gaps k left claimed) :
    p.producer.head.words = (markAt s l k).words + rawBefore gaps k + claimed := by
  cases h with
  | idle hhead _ =>
    rw [hhead, Nat.add_assoc]
    rfl
  | filling hpiece hf hwords =>
    obtain ⟨hnext, -⟩ := markAt_fragment hpiece hf
    rw [words_placeAt] at hwords
    omega

theorem Works.head (h : p.Works s l gaps k left claimed) (hleft : left = []) :
    p.producer.head = markAt s l k + .ofWords (rawBefore gaps k + claimed) := by
  have hwords := h.words
  cases h with
  | idle hhead _ => exact hhead
  | filling _ _ _ hbytes =>
    subst hleft
    refine Mark.ext ?_ hbytes
    rw [hwords, Nat.add_assoc]
    rfl

theorem Works.bytes_le (h : p.Works s l gaps k left claimed) {j : Nat} (hj : j < k) :
    (markAt s l j).bytes ≤ p.producer.head.bytes := by
  cases h with
  | idle hhead _ =>
    rw [hhead]
    exact (markAt_mono s l (Nat.le_of_lt hj)).2
  | filling _ _ _ _ hlow =>
    exact Nat.le_trans (markAt_mono s l (Nat.le_of_lt_succ hj)).2 hlow

theorem Works.of_eq (h : p.Works s l gaps k left claimed)
    (hhead : q.producer.head = p.producer.head) (hstarts : q.producer.starts = p.producer.starts)
    (hpending : q.producer.pending = p.producer.pending) : q.Works s l gaps k left claimed := by
  cases h with
  | idle hat hnone => exact .idle (hhead.trans hat) (hpending.trans hnone)
  | filling hpiece hf hwords hbytes hlow hstart hleft hsome =>
    rw [← hhead] at hwords hbytes hlow
    exact .filling hpiece hf hwords hbytes hlow (hstarts ▸ hstart) hleft (hpending.trans hsome)

theorem Works.left_of_none (h : p.Works s l gaps k left claimed)
    (hpending : p.producer.pending = none) : left = [] := by
  cases h with
  | idle => rfl
  | filling _ _ _ _ _ _ _ hsome =>
    rw [hpending] at hsome
    cases hsome

theorem Lays.holds (h : p.Lays s l gaps g w) (k : Nat) (piece : Piece) (hpiece : l[k]? = some piece)
    (hk : k < g.opened) (hfirst : w.first g.read ≤ k) :
    p.ring.Holds s (placeAt s l gaps k) (baseAt s l k piece) p.producer.head.bytes (g.leftIn k)
      (k + 1 < g.opened ∨ p.producer.pending = none) piece :=
  h.accounts k piece hpiece hk hfirst

theorem Lays.byteBase (h : p.Lays s l gaps g w) (hk : g.opened = k + 1)
    (hpiece : l[k]? = some piece) : p.producer.byteBase = baseAt s l k piece :=
  h.spans k piece hk hpiece

theorem Lays.fragment_end_le (h : p.Lays s l gaps g w) {m : MessageData} {index : Nat}
    {d : FragmentData} {f : Fragment} (hpiece : l[k]? = some (.fragment m index d))
    (hf : s.fragment? d.cursor = some f) (hk : k < g.opened) :
    (placeAt s l gaps k).words + f.words ≤ p.producer.head.words := by
  have hend := h.ends k _ hpiece hk
  rw [Piece.extent, hf] at hend
  exact hend

theorem Lays.tail_le (h : p.Lays s l gaps g w) (hfirst : w.first g.read ≤ k) :
    p.ring.tail ≤ placeAt s l gaps k :=
  h.toLodges.tail_le (row_placeAt s l gaps) hfirst

theorem Lays.glance (h : p.Lays s l gaps g w) (seen : Mark) : (p.glance seen).Lays s l gaps g w :=
  { h with toLodges := h.toLodges.glance seen, works := h.works.of_eq rfl rfl rfl }

theorem Lays.glanced (h : p.Lays s l gaps g w) {r : Pipe} (hglance : ∃ seen, r = p.glance seen)
    (hq : r = q) : q.Lays s l gaps g w := by
  obtain ⟨seen, hseen⟩ := hglance
  rw [← hq, hseen]
  exact h.glance seen

theorem Works.bytes_eq (h : p.Works s l gaps (k + 1) left claimed) (hleft : left = [])
    (hpiece : l[k]? = some piece) :
    p.producer.head.bytes - (placeAt s l gaps k).bytes = (piece.extent s).bytes := by
  rw [h.head hleft, markAt_succ hpiece]
  exact Nat.add_sub_cancel_left (markAt s l k).bytes (piece.extent s).bytes

/-- A fragment whose fields are all written is complete with its trailer. -/
theorem Lays.storeTrailer (hs : s.Measured) (hordered : p.Ordered) (h : p.Lays s l gaps g w)
    (hfilled : g.left = []) : p.storeTrailer.Lays s l gaps g w where
  toLodges := h.toLodges.storeTrailer hs (row_placeAt s l gaps) (g.local_account hs l gaps) hordered
    fun _ _ hk hpiece => (hk ▸ h.works).bytes_eq hfilled hpiece
  read_le := h.read_le
  published_le := h.published_le
  claimed_le := h.claimed_le
  granted := by simpa using h.granted
  bytes := by simpa using h.bytes
  below := by simpa using h.below
  above := by simpa using h.above
  settled := fun _ => p.pending_storeTrailer
  works := by
    rw [hfilled]
    exact .idle (p.head_storeTrailer.trans (h.works.head hfilled)) p.pending_storeTrailer

theorem Lays.publish (hs : s.Measured) (hordered : p.Ordered) (h : p.Lays s l gaps g w)
    (hfilled : g.left = []) : p.publish.Lays s l gaps { g with published := g.opened } w := by
  have hstored := h.storeTrailer hs hordered hfilled
  have hhead : p.storeTrailer.producer.head.bytes = (markAt s l g.opened).bytes := by
    rw [hstored.works.head hfilled]
    rfl
  refine { hstored with
    toLodges := h.toLodges.publish hs (row_placeAt s l gaps) (g.local_account hs l gaps) hordered
      fun _ _ hk hpiece => (hk ▸ h.works).bytes_eq hfilled hpiece
    read_le := Nat.le_trans h.read_le h.published_le
    published_le := Nat.le_refl _
    bytes := hhead
    below := ?_
    above := hstored.ends
    settled := fun _ => p.pending_storeTrailer
    works := hstored.works.of_eq rfl rfl rfl }
  show p.storeTrailer.producer.head.words ≤ _
  have hclaimed := h.claimed_le
  rw [hstored.works.words, words_placeAt, rawBefore]
  simp only
  omega

theorem Lays.head_place (h : p.Lays s l gaps g w) (hfilled : g.left = [])
    (hclaimed : w.claimed = gaps g.opened) : p.producer.head = placeAt s l gaps g.opened := by
  rw [h.works.head hfilled, hclaimed]
  rfl

theorem Lays.storeAhead (hs : s.Measured) (h : p.Lays s l gaps g w) {offset : Nat} (value : Int32)
    (hgranted : offset < w.granted) : (p.storeAhead offset value).Lays s l gaps g w := by
  have hroom := h.granted
  have hcapacity : (p.storeAhead offset value).ring.capacity = p.ring.capacity :=
    p.ring.capacity_setWord _ _
  have hbeyond : p.Beyond (p.storeAhead offset value) :=
    ⟨rfl, hcapacity, rfl, Mark.le_refl _,
      p.ring.keeps_setWord value (Nat.le_add_right _ _) (by omega)⟩
  exact { h with
    toLodges := h.toLodges.stays (row_placeAt s l gaps) (g.local_account hs l gaps) hbeyond rfl rfl
    granted := hcapacity ▸ hroom
    works := h.works.of_eq rfl rfl rfl }

theorem Lays.roomFor (hordered : p.Ordered) (h : p.Lays s l gaps g w) {words : Nat}
    (hroom : p.roomFor (.ofWords words) = (true, q)) :
    q.Lays s l gaps g { w with granted := words } := by
  rcases p.roomFor_cases (.ofWords words) with ⟨seen, hseen, hfits, hcase⟩ | ⟨-, hcase⟩ <;>
    rw [hcase] at hroom <;> cases hroom
  exact { h.glance seen with granted := (hordered.fits hseen hfits).1 }

theorem Lays.claim (hs : s.Measured) (hordered : p.Ordered) (h : p.Lays s l gaps g w)
    (hfilled : g.left = []) {words : Nat} (hgap : w.claimed + words ≤ gaps g.opened)
    (hclaim : p.claim words = (.ok (), q)) : q.Lays s l gaps g (w.claims words) := by
  rcases p.claim_cases words with ⟨seen, hseen, hfits, hcase⟩ | ⟨-, cause, hcase⟩ <;>
    rw [hcase] at hclaim <;> cases hclaim
  have hroom := (hordered.fits hseen hfits).1
  have hstored := (h.glance seen).storeTrailer hs (hordered.glance hseen) hfilled
  have hpending := (p.glance seen).pending_storeTrailer
  refine { hstored with
    toLodges := hstored.toLodges.stays (row_placeAt s l gaps) (g.local_account hs l gaps)
      ⟨rfl, rfl, rfl, Mark.le_add _ _, .of_eq rfl rfl⟩ rfl rfl
    claimed_le := hgap
    granted := ?_
    works := ?_
    settled := fun _ => hpending }
  · show (p.glance seen).storeTrailer.producer.head.words + words + 0 ≤ _
    rw [head_storeTrailer, advanceHead, ring_tail_storeTrailer, capacity_storeTrailer]
    exact hroom
  · rw [hfilled]
    refine .idle ?_ hpending
    show (p.glance seen).storeTrailer.producer.head + .ofWords words = _
    rw [hstored.works.head hfilled, Mark.add_assoc]
    exact Mark.ext (by simp only [Mark.words_add, Mark.ofWords, Raw.claims]; omega) rfl

end Work

section Stream

variable {s : Schema} {items : List StreamItem} {gaps : Nat → Nat} {p q : Pipe} {g : Progress}
  {w : Raw} {m : MessageData} {index : Nat} {d : FragmentData} {f : Fragment}

theorem Progress.account_opens {l : List Piece} {g' : Progress} (hfilled : g.left = [])
    (hopened : g'.opened = g.opened + 1) {k : Nat} (hk : k < g.opened) :
    g'.account s l gaps k = g.account s l gaps k := by
  refine Progress.account_congr ?_
  rw [Progress.leftIn_of_nil hfilled]
  exact if_neg (by omega)

theorem Works.opens {l : List Piece} {k : Nat} (hnext : l[k]? = some (.fragment m index d))
    (hf : s.fragment? d.cursor = some f) (hhead : p.producer.head = placeAt s l gaps k)
    (hopens : Opens f f.depth p q) (hdepth : f.depth < p.producer.starts.size) :
    q.Works s l gaps (k + 1) (s.fieldsOf f) 0 := by
  obtain ⟨-, hnextBytes⟩ := markAt_fragment hnext hf
  have hnewHead : q.producer.head = placeAt s l gaps k + .ofWords f.words := by
    rw [hopens.head, hhead]
  have hbytes : q.producer.head.bytes = (markAt s l k).bytes := by
    rw [hnewHead]
    rfl
  refine .filling hnext hf ?_ ?_ (Nat.le_of_eq hbytes.symm) ?_ (fun _ hposition => hposition) ?_
  · rw [hnewHead]
    rfl
  · rw [hbytes, hnextBytes]
  · rw [hopens.starts, hhead, Array.getElem?_setIfInBounds_self_of_lt hdepth]
  · rw [hopens.pending, hhead]
    rfl

theorem Lays.opens (hs : s.Measured) (hfits : StreamFits s items)
    (h : p.Lays s (piecesOf items) gaps g w) (hfilled : g.left = [])
    (hclaimed : w.claimed = gaps g.opened) (hpending : p.producer.pending = none)
    (hnext : (piecesOf items)[g.opened]? = some (.fragment m index d))
    (hf : s.fragment? d.cursor = some f) (hopens : Opens f f.depth p q)
    (hdepth : f.depth < p.producer.starts.size)
    (hroom : p.producer.head.words + f.words ≤ p.ring.tail.words + p.ring.capacity.words) :
    q.Lays s (piecesOf items) gaps
      { g with opened := g.opened + 1, left := s.fieldsOf f } w.opens := by
  have hhead := h.head_place hfilled hclaimed
  have hends := hopens.ring_ends
  refine ⟨?_, h.read_le, Nat.le_succ_of_le h.published_le, Nat.zero_le _, ?_, hends.1 ▸ h.bytes,
    hends.1 ▸ h.below, hends.1 ▸ h.above, fun hall => ?_, .opens hnext hf hhead hopens hdepth⟩
  · refine h.toLodges.opens hs hfits (row_placeAt s _ gaps) (g.local_account hs _ gaps) hpending
      hhead
      hnext hf hopens hroom (fun _ _ => rfl) (fun k hk => Progress.account_opens hfilled rfl hk)
      fun hid complete hopen => ?_
    intro f' hf'
    rw [hf] at hf'
    cases hf'
    refine ⟨hid, fun position e offset shape hfield hshape hwritten => ?_,
      fun hdone => absurd hdone hopen⟩
    rw [Progress.leftIn, if_pos rfl] at hwritten
    exact absurd (Schema.mem_fieldsOf.2
      ⟨hfield.start_le, hfield.lt_stop, e, shape, hfield.entry, hshape⟩) hwritten
  · rw [hopens.head, hends.2.1, hends.2.2.2]
    exact hroom
  · have := h.published_le
    simp only at hall
    omega

theorem Lays.openAt (hs : s.Measured) (hfits : StreamFits s items) (hordered : p.Ordered)
    (h : p.Lays s (piecesOf items) gaps g w) (hfilled : g.left = [])
    (hclaimed : w.claimed = gaps g.opened)
    (hnext : (piecesOf items)[g.opened]? = some (.fragment m index d))
    (hf : s.fragment? d.cursor = some f) {bytes : Nat}
    (hopen : p.openAt d.cursor bytes = (.ok true, q)) :
    q.Lays s (piecesOf items) gaps
      { g with opened := g.opened + 1, left := s.fieldsOf f } w.opens := by
  obtain ⟨f', seen, hf', hseen, hdepth, hopens, hroom⟩ := opens_of_ordered hordered hopen
  rw [h.schema, hf] at hf'
  cases hf'
  rw [Schema.openDepth_eq hs.laidOut hf] at hopens hdepth
  refine ((h.glance seen).storeTrailer hs (hordered.glance hseen) hfilled).opens hs hfits hfilled
    hclaimed (pending_storeTrailer _) hnext hf hopens ?_ ?_
  · rw [starts_storeTrailer]
    exact hdepth
  · rw [head_storeTrailer, ring_tail_storeTrailer, capacity_storeTrailer]
    exact hroom

theorem Works.puts {l : List Piece} {k claimed start position : Nat} {left : List Nat}
    (h : p.Works s l gaps (k + 1) left claimed) (hpiece : l[k]? = some (.fragment m index d))
    (hleft : position ∈ left) (hputs : Puts start (d.value position) p q) :
    q.Works s l gaps (k + 1) (left.erase position) claimed := by
  cases h with
  | idle => cases hleft
  | filling hpiece' hf hwords hbytes hlow hstart hfields hpending =>
    rw [hpiece] at hpiece'
    cases hpiece'
    have herase := d.bytesAt_erase hleft
    have hnewHead : q.producer.head = p.producer.head + .ofBytes (d.value position).byteLength :=
      hputs.head
    have hnewBytes : q.producer.head.bytes =
        p.producer.head.bytes + (d.value position).byteLength := by
      rw [hnewHead]
      rfl
    refine .filling hpiece hf ?_ ?_ ?_ (hputs.starts ▸ hstart)
      (fun other hother => hfields other (List.mem_of_mem_erase hother))
      (hputs.pending.trans hpending)
    · rw [← hwords, hnewHead]
      rfl
    · omega
    · omega

section Puts

variable {l : List Piece} (hs : s.Measured) {k position offset published read : Nat}
  {left : List Nat} {e : Entry} (h : p.Lays s l gaps ⟨k + 1, left, published, read⟩ w)
  (hpiece : l[k]? = some (.fragment m index d)) (hf : s.fragment? d.cursor = some f)
  (hfield : s.Field f position e offset)
  (hshape : e.token.shape? = some (d.value position).shape)
  (hputs : Puts ((placeAt s l gaps k).words + offset) (d.value position) p q)

include hs h hpiece hf hfield hshape hputs in
/-- What is written into the last piece leaves the others as they are. -/
theorem Lays.holds_puts {j : Nat} {piece : Piece} (hj : l[j]? = some piece) (hlt : j < k + 1)
    (hfirst : w.first read ≤ j) :
    q.ring.Holds s (placeAt s l gaps j) (baseAt s l j piece) q.producer.head.bytes
      (Progress.leftIn ⟨k + 1, left.erase position, published, read⟩ j)
      (j + 1 < k + 1 ∨ q.producer.pending = none) piece := by
  have hfrom := h.tail_le hfirst
  have hheld := h.holds j piece hj hlt hfirst
  have hbytes : p.producer.head.bytes ≤ q.producer.head.bytes := by
    rw [hputs.head]
    exact Nat.le_add_right _ _
  rw [← hputs.pending] at hheld
  by_cases hlast : j = k
  · subst hlast
    rw [hpiece] at hj
    cases hj
    intro f' hf'
    rw [hf] at hf'
    cases hf'
    have hcurrent : Progress.leftIn ⟨j + 1, left.erase position, published, read⟩ j =
        (Progress.leftIn ⟨j + 1, left, published, read⟩ j).erase position := by
      simp [Progress.leftIn]
    rw [hcurrent]
    refine (hheld f hf).write hs hf hfield hshape ?_ ?_ hbytes
    · rw [← h.byteBase rfl hpiece]
      exact hputs.stores.mono (h.works.bytes_le (Nat.lt_succ_self j)) (Nat.le_refl _)
    · intro low stop hlow hstop hapart
      have hend := h.fragment_end_le hpiece hf (Nat.lt_succ_self j)
      exact hputs.keeps low stop (Mark.le_trans hfrom hlow)
        (Mark.le_trans hstop ⟨hend, Nat.le_refl _⟩) hapart
  · have hsame : Progress.leftIn ⟨k + 1, left.erase position, published, read⟩ j =
        Progress.leftIn ⟨k + 1, left, published, read⟩ j := by
      simp [Progress.leftIn, hlast]
    have hapart := end_le_of_lt s gaps hj (show j < k by omega)
    have hplace := words_placeAt s l gaps k
    rw [rawBefore] at hplace
    rw [hsame]
    refine hheld.of_keeps hs
      (hputs.keeps _ _ hfrom ⟨h.ends j piece hj hlt, Nat.le_refl _⟩ (.inl ?_)) hbytes
    simp only
    omega

include hs h hpiece hf hfield hshape hputs in
theorem Lays.puts (hleft : position ∈ left) :
    q.Lays s l gaps ⟨k + 1, left.erase position, published, read⟩ w := by
  refine ⟨h.toLodges.puts hputs rfl (fun _ _ => rfl)
      fun j piece hj hlt hfirst => h.holds_puts hs hpiece hf hfield hshape hputs hj hlt hfirst,
    h.read_le, h.published_le, h.claimed_le, ?_, hputs.ring_head ▸ h.bytes,
    hputs.ring_head ▸ h.below, hputs.ring_head ▸ h.above,
    fun hall => hputs.pending.trans (h.settled hall), h.works.puts hpiece hleft hputs⟩
  rw [hputs.head, hputs.ring_tail, hputs.capacity]
  exact h.granted

end Puts

/-- A field that is left lies in the fragment that is being filled, and that is not published. -/
theorem Lays.left_filling (hs : s.Measured) (hfits : StreamFits s items)
    (h : p.Lays s (piecesOf items) gaps g w) {k position : Nat} (hopened : g.opened = k + 1)
    (hpiece : (piecesOf items)[k]? = some (.fragment m index d)) (hleft : position ∈ g.left)
    {loc : Locator} (hloc : s.locator? position = some loc) :
    s.HasField d.cursor position loc (d.value position).shape ∧
      p.producer.starts[loc.depth]? = some (placeAt s (piecesOf items) gaps k).words ∧
        g.published ≤ k := by
  obtain ⟨opened, left, published, read⟩ := g
  obtain rfl : opened = k + 1 := hopened
  obtain ⟨granted, claimed, skipped, passing⟩ := w
  obtain ⟨hitem, hmember⟩ := mem_of_piecesOf hpiece
  have hwork := h.works
  cases hwork with
  | idle => cases hleft
  | @filling _ _ _ _ f _ hpiece' hf _ _ _ hstart hleft' hpending =>
    rw [hpiece] at hpiece'
    cases hpiece'
    have hposition := hleft' position hleft
    obtain ⟨hle, hlt, e, shape, he, hshape⟩ := Schema.mem_fieldsOf.1 hposition
    have hvalue := ((hfits m hitem).fragments d (List.mem_of_getElem? hmember)).shape f position e
      shape hf hle hlt he hshape
    have hfield : s.HasField d.cursor position loc (d.value position).shape :=
      ⟨f, hf, hposition, hloc, by rw [he, hvalue]; exact hshape⟩
    have hopen : published ≠ k + 1 := fun hall => by
      rw [h.settled hall] at hpending
      cases hpending
    obtain ⟨f', e', offset, hf', -, -, rfl⟩ := hfield.field hs
    rw [hf] at hf'
    cases hf'
    exact ⟨hfield, hstart, Nat.le_of_lt_succ (Nat.lt_of_le_of_ne h.published_le hopen)⟩

theorem Lays.write (hs : s.Measured) (hfits : StreamFits s items) (hordered : p.Ordered)
    (h : p.Lays s (piecesOf items) gaps g w) {k position : Nat} (hopened : g.opened = k + 1)
    (hpiece : (piecesOf items)[k]? = some (.fragment m index d)) (hleft : position ∈ g.left)
    {loc : Locator} (hloc : s.locator? position = some loc)
    (hwrite : p.write loc (d.value position) = (.ok (), q)) :
    q.Lays s (piecesOf items) gaps { g with left := g.left.erase position } w := by
  obtain ⟨hhas, hstart, hunpublished⟩ := h.left_filling hs hfits hopened hpiece hleft hloc
  obtain ⟨f, e, offset, hf, hfield, hshape, rfl⟩ := hhas.field hs
  obtain ⟨opened, left, published, read⟩ := g
  obtain rfl : opened = k + 1 := hopened
  have hwords := hfield.lt_words
  rw [Token.words_of_shape? hshape] at hwords
  have hend := h.fragment_end_le hpiece hf (Nat.lt_succ_self k)
  have hlow := h.works.bytes_le (Nat.lt_succ_self k)
  have hfirst := Nat.le_trans (w.first_le read) (Nat.le_trans h.read_le hunpublished)
  obtain ⟨htailWords, htailBytes⟩ := h.tail_le hfirst
  rw [bytes_placeAt] at htailBytes
  have hbase := baseAt_le s (piecesOf items) k (.fragment m index d)
  rw [← h.byteBase rfl hpiece] at hbase
  rcases write_puts ⟨f.depth, offset⟩ (d.value position) hordered hstart (by simp only; omega)
    (by simp only; omega) (by omega) (by omega) with
    ⟨r, hdone, hputs⟩ | ⟨fault, seen, hrefused⟩
  · rw [hwrite] at hdone
    cases hdone
    exact h.puts hs hpiece hf hfield hshape hputs hleft
  · rw [hwrite] at hrefused
    cases hrefused

theorem Lays.marks (hs : s.Measured) (hfits : StreamFits s items)
    (h : p.Lays s (piecesOf items) gaps g w) (hfilled : g.left = [])
    (hclaimed : w.claimed = gaps g.opened) (hpending : p.producer.pending = none)
    (hnext : (piecesOf items)[g.opened]? = some .marker) {seen : Mark} (hmarks : Marks seen p q)
    (hroom : p.producer.head.words + (s.idDistance + 2) ≤
      p.ring.tail.words + p.ring.capacity.words) :
    q.Lays s (piecesOf items) gaps
      { g with opened := g.opened + 1, published := g.opened + 1 } w.opens := by
  have hhead := h.head_place hfilled hclaimed
  have hnewHead := hmarks.head
  rw [h.schema, hs.marker_eq] at hnewHead
  have hnextMark : q.producer.head = markAt s (piecesOf items) (g.opened + 1) +
      .ofWords (rawBefore gaps (g.opened + 1) + 0) := by
    rw [hnewHead, markAt_succ hnext, hhead]
    exact Mark.ext (by simp only [placeAt, Mark.words_add, Piece.extent, Mark.ofWords]; omega) rfl
  have hlodges : q.Lodges s (piecesOf items) (placeAt s (piecesOf items) gaps)
      (Progress.account { g with opened := g.opened + 1, published := g.opened + 1 } s
        (piecesOf items) gaps) (w.first g.read) (g.opened + 1) :=
    h.toLodges.marks hs hfits (row_placeAt s _ gaps) (g.local_account hs _ gaps) hpending hhead
      hnext hmarks hroom (fun _ _ => rfl) (fun k hk => Progress.account_opens hfilled rfl hk)
      fun hid htrailer _ => ⟨hid, htrailer⟩
  refine ⟨hlodges, Nat.le_succ_of_le (Nat.le_trans h.read_le h.published_le), Nat.le_refl _,
    Nat.zero_le _, ?_, ?_, ?_, ?_, fun _ => hmarks.pending, ?_⟩
  · rw [hnewHead, hmarks.tail, hmarks.capacity]
    exact hroom
  · rw [hmarks.published, hnextMark]
    rfl
  · rw [hmarks.published, hnextMark, words_placeAt]
    exact Nat.add_le_add_left (Nat.le_add_right _ _) _
  · rw [hmarks.published]
    exact hlodges.ends
  · show q.Works s (piecesOf items) gaps (g.opened + 1) g.left 0
    rw [hfilled]
    exact .idle hnextMark hmarks.pending

theorem Lays.publishMarker (hs : s.Measured) (hfits : StreamFits s items) (hordered : p.Ordered)
    (h : p.Lays s (piecesOf items) gaps g w) (hfilled : g.left = [])
    (hclaimed : w.claimed = gaps g.opened) (hnext : (piecesOf items)[g.opened]? = some .marker)
    (hmarker : p.publishMarker = (true, q)) :
    q.Lays s (piecesOf items) gaps
      { g with opened := g.opened + 1, published := g.opened + 1 } w.opens := by
  obtain rfl := h.schema
  obtain ⟨seen, hmarks, hroom⟩ := marks_of_ordered hs hordered hmarker
  apply (h.storeTrailer hs hordered hfilled).marks hs hfits hfilled hclaimed p.pending_storeTrailer
    hnext hmarks
  rw [head_storeTrailer, ring_tail_storeTrailer, capacity_storeTrailer]
  exact hroom

/-- A marker that finds no room still completes what was open. -/
theorem Lays.publishMarker_refused {l : List Piece} (hs : s.Measured) (hordered : p.Ordered)
    (h : p.Lays s l gaps g w) (hfilled : g.left = []) (hmarker : p.publishMarker = (false, q)) :
    q.Lays s l gaps g w := by
  rcases p.publishMarker_cases with ⟨seen, hseen, hroom, hcase⟩ | ⟨-, hcase⟩ <;>
    rw [hcase] at hmarker <;> cases hmarker
  exact (h.storeTrailer hs hordered hfilled).glance _

theorem Lays.of_consumer {l : List Piece} (hs : s.Measured) (h : p.Lays s l gaps g w) {read : Nat}
    {v : Raw} (hschema : q.schema = p.schema) (hproducer : q.producer = p.producer) {tail : Mark}
    (hring : q.ring = { p.ring with tail }) (htail : tail ≤ placeAt s l gaps (v.first read))
    (hmore : p.ring.tail ≤ tail) (hfirst : w.first g.read ≤ v.first read)
    (hpublished : read ≤ g.published) (hgranted : v.granted = w.granted)
    (hclaimed : v.claimed = w.claimed) : q.Lays s l gaps { g with read } v := by
  have hcapacity : q.ring.capacity = p.ring.capacity := by rw [hring]; rfl
  have hhead : q.ring.head = p.ring.head := by rw [hring]
  have hlater := Nat.le_trans (v.first_le read) (Nat.le_trans hpublished h.published_le)
  refine ⟨h.toLodges.of_consumer (g.local_account hs l gaps) hschema hproducer hring htail hfirst
      hlater, hpublished, h.published_le, hclaimed ▸ h.claimed_le, ?_, hhead ▸ h.bytes,
    hhead ▸ h.below, hhead ▸ h.above, hproducer ▸ h.settled, ?_⟩
  · have hroom := h.granted
    have hless := hmore.1
    rw [hproducer, hgranted, hcapacity, hring]
    simp only
    omega
  · rw [hclaimed]
    exact h.works.of_eq (by rw [hproducer]) (by rw [hproducer]) (by rw [hproducer])

theorem Lays.of_unmoved {l : List Piece} (hs : s.Measured) (h : p.Lays s l gaps g w)
    (hunmoved : p.Unmoved q) : q.Lays s l gaps g w := by
  obtain ⟨seen, -, rfl⟩ := hunmoved
  exact h.of_consumer hs rfl rfl rfl h.tail (Mark.le_refl _) (Nat.le_refl _) h.read_le rfl rfl

variable {k : Nat} {piece : Piece}

theorem Lays.holds_published {l : List Piece} (h : p.Lays s l gaps g w)
    (hpiece : l[k]? = some piece) (hk : k < g.published) (hfirst : w.first g.read ≤ k) :
    p.ring.Holds s (placeAt s l gaps k) (baseAt s l k piece) p.producer.head.bytes [] True
      piece := by
  have hopened := h.published_le
  have hheld := h.holds k piece hpiece (by omega) hfirst
  by_cases hlast : k + 1 = g.opened
  · have hpending := h.settled (by omega)
    rw [Progress.leftIn_of_nil (h.works.left_of_none hpending)] at hheld
    exact hheld.imp fun _ => .inr hpending
  · have hnone : g.leftIn k = [] := if_neg hlast
    rw [hnone] at hheld
    exact hheld.imp fun _ => .inl (by omega)

theorem Lays.bytes_le {l : List Piece} (hordered : p.Ordered) (h : p.Lays s l gaps g w)
    (hpiece : l[k]? = some piece) (hk : k < g.published) (hfirst : w.first g.read ≤ k) :
    (piece.extent s).bytes ≤ p.ring.capacity.bytes := by
  have hend := (markAt_mono s l (show k + 1 ≤ g.published from hk)).2
  have htail := (h.tail_le hfirst).2
  have hpublished := hordered.published.2
  have hroom := hordered.room.2
  rw [h.bytes] at hpublished
  rw [markAt_succ hpiece] at hend
  rw [bytes_placeAt] at htail
  simp only [Mark.bytes_add] at hend hroom
  omega

theorem Lays.guides (hs : s.Measured) (hfits : StreamFits s items)
    (h : p.Lays s (piecesOf items) gaps g w) (hpiece : (piecesOf items)[k]? = some piece)
    (hk : k < g.published) (hfirst : w.first g.read ≤ k) :
    p.ring.GuidesPast s (placeAt s (piecesOf items) gaps k).words (piece.extent s).bytes piece := by
  refine (h.holds_published hpiece hk hfirst).guides hs fun m index d heq => ?_
  subst heq
  obtain ⟨hstream, hmember⟩ := mem_of_piecesOf hpiece
  exact (hfits m hstream).fragments d (List.mem_of_getElem? hmember)

end Stream

end Pipe

end FragmentPipe

import FragmentPipe.Proofs.Reader.Enclosing
import FragmentPipe.Proofs.Stream.Conservation
import FragmentPipe.Proofs.Writer.Room

set_option autoImplicit false

namespace FragmentPipe

def Piece.depth? (s : Schema) : Piece → Option Nat
  | .marker => none
  | .fragment _ _ d => (s.fragment? d.cursor).map Fragment.depth

/-- The slots of a producer that has opened so many pieces. -/
def slotsAt (s : Schema) (l : List Piece) : Nat → Array Nat
  | 0 => Array.replicate s.maxFragmentDepth 0
  | k + 1 =>
    match l[k]?.bind (Piece.depth? s) with
    | none => slotsAt s l k
    | some depth => (slotsAt s l k).setIfInBounds depth (markAt s l k).words

section Slots

variable {s : Schema} {l : List Piece} {k : Nat}

theorem slotsAt_marker (h : l[k]? = some .marker) : slotsAt s l (k + 1) = slotsAt s l k := by
  rw [slotsAt, h]
  rfl

theorem slotsAt_fragment {m : MessageData} {index : Nat} {d : FragmentData} {f : Fragment}
    (h : l[k]? = some (.fragment m index d)) (hf : s.fragment? d.cursor = some f) :
    slotsAt s l (k + 1) = (slotsAt s l k).setIfInBounds f.depth (markAt s l k).words := by
  rw [slotsAt, h, Option.bind_some, Piece.depth?, hf]
  rfl

theorem size_slotsAt (s : Schema) (l : List Piece) (k : Nat) :
    (slotsAt s l k).size = s.maxFragmentDepth := by
  induction k with
  | zero => exact Array.size_replicate
  | succ k ih =>
    unfold slotsAt
    split
    · exact ih
    · rw [Array.size_setIfInBounds]
      exact ih

theorem slots_agree {starts starts' : Array Nat} {depth start : Nat}
    (hsize : starts.size = starts'.size)
    (hbelow : ∀ j, j < depth → starts[j]? = starts'[j]?) {j : Nat} (hj : j ≤ depth) :
    (starts.setIfInBounds depth start)[j]? = (starts'.setIfInBounds depth start)[j]? := by
  rw [Array.getElem?_setIfInBounds, Array.getElem?_setIfInBounds, hsize]
  split
  · rfl
  · exact hbelow j (by omega)

end Slots

namespace Pipe

def note (openers : List Producer) (b c : Ledger) (q : Pipe) : List Producer :=
  if b.opened < c.opened then openers ++ [q.producer] else openers

/-- The states of a pipe over all runs that frame a stream, each with its ledger and with the
producers that opened the pieces. -/
inductive Noted (schema : Schema) (config : Config) (items : List StreamItem) :
    Pipe → Ledger → List Producer → Prop where
  | built {p : Pipe} (h : build schema config = .ok p) : Noted schema config items p .blank []
  | step {p q : Pipe} {b c : Ledger} {openers : List Producer}
      (h : Noted schema config items p b openers)
      (hstep : p.Books schema (piecesOf items) b q c) :
      Noted schema config items q c (note openers b c q)

section Runs

variable {schema : Schema} {config : Config} {items : List StreamItem} {p : Pipe} {b : Ledger}
  {openers : List Producer}

theorem Noted.booked (h : Noted schema config items p b openers) :
    Booked schema config items p b := by
  induction h with
  | built h => exact .built h
  | step _ hstep ih => exact ih.step hstep

end Runs

section Steps

variable {s : Schema} {items : List StreamItem} {p q : Pipe} {b c : Ledger} {told : Nat}

/-- The slots of the producer are told by how many pieces it has opened. -/
theorem Books.starts (hs : s.Measured) (hfollows : p.consumer.Follows p.schema)
    (hcovers : p.Covers s (piecesOf items) b told)
    (hstarts : p.producer.starts = slotsAt s (piecesOf items) b.opened)
    (h : p.Books s (piecesOf items) b q c) :
    q.producer.starts = slotsAt s (piecesOf items) c.opened := by
  obtain rfl := hcovers.schema
  have hkept : ∀ action : Action, action.isProducing = true →
      (∀ cursor bytes, action ≠ .run (.openAt cursor bytes)) → (p.act action).2 = q →
      q.producer.starts = slotsAt p.schema (piecesOf items) b.opened := by
    rintro action hproducing hne rfl
    exact (p.starts_of_isProducing hproducing hne).trans hstarts
  cases h with
  | @opens q m index d bytes hnext hopen =>
    obtain ⟨f, hf⟩ : ∃ f, p.schema.fragment? d.cursor = some f := by
      rcases p.openAt_cases d.cursor bytes with ⟨-, hcase⟩ | ⟨f, hf, -⟩
      · rw [hcase] at hopen
        cases hopen
      · exact ⟨f, hf⟩
    obtain ⟨-, seen, hopens⟩ := opens_of_openAt hopen hf
    have hhead : (p.glance seen).producer.head.words =
        (markAt p.schema (piecesOf items) b.opened).words := by
      show p.producer.head.words = _
      rw [hcovers.head]
      rfl
    show q.producer.starts = slotsAt p.schema (piecesOf items) (b.opened + 1)
    rw [slotsAt_fragment hnext hf, hopens.starts, hhead, Schema.openDepth_eq hs.laidOut hf,
      ← hstarts]
    rfl
  | @writes q k m index d loc value position hpiece hunpublished hopened hfield hstart hfilling
      hwrite =>
    exact hkept (.run (.write loc value)) rfl nofun (congrArg Prod.snd hwrite)
  | publishes => exact hkept (.run .publish) rfl nofun rfl
  | marks _ hnext hmarker =>
    exact (hkept (.run .publishMarker) rfl nofun (congrArg Prod.snd hmarker)).trans
      (slotsAt_marker hnext).symm
  | refusesToMark hmarker =>
    exact hkept (.run .publishMarker) rfl nofun (congrArg Prod.snd hmarker)
  | reads hread =>
    have hattempt := attempt_read hs.laidOut hfollows
    rw [hread] at hattempt
    cases hattempt with
    | moved _ _ hmoved _ =>
      rw [hmoved.producer]
      exact hstarts
  | releases =>
    unfold releaseNow release
    split <;> exact hstarts
  | refuses action hne hrefuses =>
    rcases hrefuses.idles hs.laidOut hfollows hne with ⟨seen, heq⟩ | ⟨seen, -, heq⟩ <;>
      rw [heq] <;> exact hstarts

/-- The slots of the consumer, as far as the prepared fragment is deep, are those of a producer that
has opened just the pieces that were read. -/
def Aligned (s : Schema) (l : List Piece) (p : Pipe) (b : Ledger) : Prop :=
  ∀ k m index d f, b.read = k + 1 → l[k]? = some (.fragment m index d) →
    s.fragment? d.cursor = some f →
      p.consumer.sequences.frames.length ≤ f.depth + 1 ∧
        ∀ j : Nat, j ≤ f.depth → p.consumer.starts[j]? = (slotsAt s l (k + 1))[j]?

theorem KeepsReader.aligned {l : List Piece} (h : p.KeepsReader q) (hread : c.read = b.read)
    (haligned : p.Aligned s l b) : q.Aligned s l c := by
  unfold Aligned
  rw [h.starts, h.sequences, hread]
  exact haligned

theorem Moved.aligned (hs : s.Measured) (hfits : StreamFits s items)
    (hfollows : p.consumer.Follows p.schema) (hschema : p.schema = s)
    (hstands : p.Stands s (piecesOf items) b) (haligned : p.Aligned s (piecesOf items) b)
    {piece : Piece} (hpiece : (piecesOf items)[b.read]? = some piece) {item : ReadItem}
    (hitem : piece.Item s item) (hexpected : p.Expects item) {bytes : Nat}
    (hmoved : p.Moved p.consumer.next item bytes q) :
    q.Aligned s (piecesOf items) { b with read := b.read + 1 } := by
  subst hschema
  intro k m index d f hread hfragment hf
  obtain rfl : b.read = k := Nat.succ.inj hread
  rw [hpiece] at hfragment
  cases hfragment
  have hsits := sits_of_expects hs.laidOut hfollows hexpected
  have hread : item.fragment? = some f := by
    cases hitem with
    | message hf' | continuation hf' =>
      rw [hf] at hf'
      cases hf'
      rfl
  have hdepth := Schema.depth_of_fragment? hs.laidOut hf
  have haround : (item.framesIn p.consumer.sequences.frames).length = f.depth := by
    rw [hdepth, ← (hsits.rests f hread).bodies, List.length_map]
  refine ⟨?_, fun j hj => ?_⟩
  · rw [(hmoved.place f hread).2, ← haround]
    exact p.schema.length_leave (hsits.fragment f hread) _ _
  · rw [slotsAt_fragment hpiece hf, hmoved.starts, hstands.next,
      ReadItem.Sits.depth_eq hs.laidOut hsits hread, ← hdepth]
    refine slots_agree ?_ (fun i hi => ?_) hj
    · rw [hfollows.starts, size_slotsAt]
    · -- Only inside a message are there sequences around a fragment.
      cases hitem with
      | message =>
        have hnone : 0 = f.depth := haround
        omega
      | @continuation m index e f' hf' =>
        obtain ⟨j, d, base, hj, hbefore, -⟩ := hstands.awaits.continues hs.laidOut hfits rfl hpiece
        obtain ⟨hstream, hmember⟩ := mem_of_piecesOf hbefore
        obtain ⟨g, hg, -⟩ := (hfits m hstream).begins hs.laidOut hmember
        obtain ⟨hframes, hslots⟩ := haligned j m index d g hj hbefore hg
        have hle : f.depth ≤ g.depth + 1 := haround ▸ hframes
        rw [hj]
        exact hslots i (by omega)

theorem Books.aligned (hs : s.Measured) (hfits : StreamFits s items) (hordered : p.Ordered)
    (hfollows : p.consumer.Follows p.schema) (hcovers : p.Covers s (piecesOf items) b b.published)
    (hstands : p.Stands s (piecesOf items) b) (haligned : p.Aligned s (piecesOf items) b)
    (h : p.Books s (piecesOf items) b q c) : q.Aligned s (piecesOf items) c := by
  obtain rfl := hcovers.schema
  have hkept : ∀ action : Action, action.movesReader = false → (p.act action).2 = q →
      p.KeepsReader q := by
    rintro action hstays rfl
    exact p.keepsReader_act hstays
  cases h with
  | opens bytes _ hopen =>
    exact (hkept (.run (.openAt _ bytes)) rfl (congrArg Prod.snd hopen)).aligned rfl haligned
  | writes _ _ _ _ _ _ _ hwrite =>
    exact (hkept (.run (.write _ _)) rfl (congrArg Prod.snd hwrite)).aligned rfl haligned
  | publishes => exact (hkept (.run .publish) rfl rfl).aligned rfl haligned
  | marks _ _ hmarker | refusesToMark hmarker =>
    exact (hkept (.run .publishMarker) rfl (congrArg Prod.snd hmarker)).aligned rfl haligned
  | reads hread =>
    obtain ⟨piece, item, -, hpiece, hitem, hexpected, hmoved⟩ :=
      hcovers.moved_of_read hs hfits hordered hfollows hstands hread
    exact hmoved.aligned hs hfits hfollows rfl hstands haligned hpiece hitem hexpected
  | releases => exact (hkept (.run .releaseNow) rfl rfl).aligned rfl haligned
  | refuses action hne hrefuses =>
    rcases hrefuses.idles hs.laidOut hfollows hne with ⟨seen, heq⟩ | hunmoved
    · rw [heq]
      exact (p.keepsConsumer_glance seen).keepsReader.aligned rfl haligned
    · exact hunmoved.keepsReader.aligned rfl haligned

end Steps

structure Remembers (s : Schema) (l : List Piece) (b : Ledger) (openers : List Producer) :
    Prop where
  length : openers.length = b.opened
  starts : ∀ (k : Nat) (w : Producer), openers[k]? = some w → w.starts = slotsAt s l (k + 1)

theorem Remembers.note {s : Schema} {l : List Piece} {p q : Pipe} {b c : Ledger}
    {openers : List Producer} (h : Remembers s l b openers)
    (hstarts : q.producer.starts = slotsAt s l c.opened) (hstep : p.Books s l b q c) :
    Remembers s l c (note openers b c q) := by
  have hopened : c.opened = b.opened ∨ c.opened = b.opened + 1 := by
    cases hstep with
    | opens | marks => exact .inr rfl
    | writes | publishes | refusesToMark | reads | releases | refuses => exact .inl rfl
  unfold Pipe.note
  rcases hopened with hsame | hnext
  · rw [if_neg (by omega)]
    exact ⟨h.length.trans hsame.symm, h.starts⟩
  · rw [if_pos (by omega)]
    refine ⟨?_, fun k w hk => ?_⟩
    · rw [List.length_append, h.length, hnext]
      rfl
    · by_cases hlast : k < openers.length
      · rw [List.getElem?_append_left hlast] at hk
        exact h.starts k w hk
      · have hlength := (List.getElem?_eq_some_iff.1 hk).1
        rw [List.length_append, List.length_singleton] at hlength
        obtain rfl : k = openers.length := by omega
        rw [List.getElem?_concat_length] at hk
        cases hk
        rw [hstarts, hnext, h.length]

section Runs

variable {schema : Schema} {config : Config} {items : List StreamItem} {p : Pipe} {b : Ledger}
  {openers : List Producer}

theorem Noted.aligned (h : Noted schema config items p b openers) (hs : schema.Accepted)
    (hfits : StreamFits schema items) :
    p.producer.starts = slotsAt schema (piecesOf items) b.opened ∧
      Remembers schema (piecesOf items) b openers ∧ p.Aligned schema (piecesOf items) b := by
  induction h with
  | built h =>
    rw [eq_fresh_of_build h]
    exact ⟨rfl, ⟨rfl, nofun⟩, nofun⟩
  | step h hstep ih =>
    obtain ⟨hstarts, hremembers, haligned⟩ := ih
    obtain ⟨hcovers, hstands⟩ := h.booked.balances hs hfits
    have hreachable := h.booked.reachable
    have hmeasured := hreachable.measured hs
    obtain ⟨rfl, hfollows⟩ := hreachable.follows hs.compiled
    have hnext := hstep.starts hmeasured hfollows hcovers hstarts
    exact ⟨hnext, hremembers.note hnext hstep,
      hstep.aligned hmeasured hfits (hreachable.ordered hs) hfollows hcovers hstands haligned⟩

end Runs

end Pipe

end FragmentPipe

import FragmentPipe.Proofs.Stream.Framed

set_option autoImplicit false

/-!
# Framed runs with raw words between the pieces

Words may be passed beside the frames: where no fragment is being filled, the producer stores words
behind its head, after it was told that there is room, and claims them. They carry no frame, so the
consumer has to know how many there are, and skips them where the next piece would begin. Apart from
that such a run is a framed run, and one without raw words is nothing else.
-/
namespace FragmentPipe

def rawBefore (gaps : Nat → Nat) : Nat → Nat
  | 0 => 0
  | k + 1 => rawBefore gaps k + gaps k

def placeAt (s : Schema) (l : List Piece) (gaps : Nat → Nat) (k : Nat) : Mark :=
  markAt s l k + .ofWords (rawBefore gaps (k + 1))

section Places

variable {s : Schema} {l : List Piece} {gaps : Nat → Nat} {j k : Nat}

theorem rawBefore_mono (gaps : Nat → Nat) (h : j ≤ k) : rawBefore gaps j ≤ rawBefore gaps k := by
  induction h with
  | refl => exact Nat.le_refl _
  | step _ ih => exact Nat.le_trans ih (Nat.le_add_right _ _)

theorem rawBefore_none (k : Nat) : rawBefore (fun _ => 0) k = 0 := by
  induction k with
  | zero => rfl
  | succ k ih => rw [rawBefore, ih]

theorem words_placeAt (s : Schema) (l : List Piece) (gaps : Nat → Nat) (k : Nat) :
    (placeAt s l gaps k).words = (markAt s l k).words + rawBefore gaps (k + 1) := rfl

theorem bytes_placeAt (s : Schema) (l : List Piece) (gaps : Nat → Nat) (k : Nat) :
    (placeAt s l gaps k).bytes = (markAt s l k).bytes := rfl

theorem placeAt_mono (s : Schema) (l : List Piece) (gaps : Nat → Nat) (h : j ≤ k) :
    placeAt s l gaps j ≤ placeAt s l gaps k := by
  obtain ⟨hwords, hbytes⟩ := markAt_mono s l h
  have hraw := rawBefore_mono gaps (show j + 1 ≤ k + 1 by omega)
  refine ⟨?_, hbytes⟩
  rw [words_placeAt, words_placeAt]
  omega

theorem placeAt_none (s : Schema) (l : List Piece) (k : Nat) :
    placeAt s l (fun _ => 0) k = markAt s l k := by
  rw [placeAt, rawBefore_none]
  exact Mark.add_origin _

theorem end_le_of_lt (s : Schema) (gaps : Nat → Nat) {piece : Piece} (h : l[j]? = some piece)
    (hjk : j < k) :
    (placeAt s l gaps j + piece.extent s).words ≤ (markAt s l k).words + rawBefore gaps k := by
  have hmark := (markAt_mono s l (show j + 1 ≤ k from hjk)).1
  have hraw := rawBefore_mono gaps (show j + 1 ≤ k from hjk)
  rw [markAt_succ h] at hmark
  rw [Mark.words_add] at hmark ⊢
  rw [words_placeAt]
  omega

end Places

structure Raw where
  /-- Words behind the producer's head that room was found for. -/
  granted : Nat
  /-- Words that were claimed since the piece opened last. -/
  claimed : Nat
  /-- Words that were skipped since the piece read last. -/
  skipped : Nat
  /-- The piece read last was left behind by a skip. -/
  passing : Bool

namespace Raw

def none : Raw := ⟨0, 0, 0, false⟩

/-- The first piece that is still needed, once so many were read: the prepared one, or the next. -/
def first (w : Raw) (read : Nat) : Nat := if w.passing then read else read - 1

theorem first_le (w : Raw) (read : Nat) : w.first read ≤ read := by
  unfold first
  split
  · exact Nat.le_refl _
  · exact Nat.sub_le _ _

def opens (w : Raw) : Raw := { w with granted := 0, claimed := 0 }

def claims (w : Raw) (words : Nat) : Raw := { w with granted := 0, claimed := w.claimed + words }

def reads (w : Raw) : Raw := { w with skipped := 0, passing := false }

def skips (w : Raw) (words : Nat) : Raw :=
  { w with skipped := w.skipped + words, passing := true }

end Raw

namespace Pipe

/-- The states of a pipe over all runs of a stream in which so many raw words stand in front of each
piece. -/
inductive Spaced (schema : Schema) (config : Config) (items : List StreamItem) (gaps : Nat → Nat) :
    Pipe → Progress → Raw → Prop where
  | built {p : Pipe} (h : build schema config = .ok p) :
      Spaced schema config items gaps p ⟨0, [], 0, 0⟩ .none
  | opens {p q : Pipe} {g : Progress} {w : Raw} {m : MessageData} {index : Nat} {d : FragmentData}
      {f : Fragment} (h : Spaced schema config items gaps p g w) (bytes : Nat)
      (hnext : (piecesOf items)[g.opened]? = some (.fragment m index d)) (hfilled : g.left = [])
      (hclaimed : w.claimed = gaps g.opened) (hf : schema.fragment? d.cursor = some f)
      (hopen : p.openAt d.cursor bytes = (.ok true, q)) :
      Spaced schema config items gaps q
        { g with opened := g.opened + 1, left := schema.fieldsOf f } w.opens
  | refusesToOpen {p q : Pipe} {g : Progress} {w : Raw} {result : Except Fault Bool}
      (h : Spaced schema config items gaps p g w) (cursor : Int) (bytes : Nat)
      (hopen : p.openAt cursor bytes = (result, q)) (hrefused : result ≠ .ok true) :
      Spaced schema config items gaps q g w
  | writes {p q : Pipe} {g : Progress} {w : Raw} {k : Nat} {m : MessageData} {index : Nat}
      {d : FragmentData} {loc : Locator} (h : Spaced schema config items gaps p g w)
      (position : Nat) (hopened : g.opened = k + 1)
      (hpiece : (piecesOf items)[k]? = some (.fragment m index d)) (hleft : position ∈ g.left)
      (hloc : schema.locator? position = some loc)
      (hwrite : p.write loc (d.value position) = (.ok (), q)) :
      Spaced schema config items gaps q { g with left := g.left.erase position } w
  | refusesToWrite {p q : Pipe} {g : Progress} {w : Raw} {k : Nat} {m : MessageData} {index : Nat}
      {d : FragmentData} {loc : Locator} {fault : Fault}
      (h : Spaced schema config items gaps p g w) (position : Nat) (hopened : g.opened = k + 1)
      (hpiece : (piecesOf items)[k]? = some (.fragment m index d)) (hleft : position ∈ g.left)
      (hloc : schema.locator? position = some loc)
      (hwrite : p.write loc (d.value position) = (.error fault, q)) :
      Spaced schema config items gaps q g w
  | publishes {p : Pipe} {g : Progress} {w : Raw} (h : Spaced schema config items gaps p g w)
      (hfilled : g.left = []) :
      Spaced schema config items gaps p.publish { g with published := g.opened } w
  | marks {p q : Pipe} {g : Progress} {w : Raw} (h : Spaced schema config items gaps p g w)
      (hnext : (piecesOf items)[g.opened]? = some .marker) (hfilled : g.left = [])
      (hclaimed : w.claimed = gaps g.opened) (hmarker : p.publishMarker = (true, q)) :
      Spaced schema config items gaps q
        { g with opened := g.opened + 1, published := g.opened + 1 } w.opens
  | refusesToMark {p q : Pipe} {g : Progress} {w : Raw} (h : Spaced schema config items gaps p g w)
      (hfilled : g.left = []) (hmarker : p.publishMarker = (false, q)) :
      Spaced schema config items gaps q g w
  | findsRoom {p q : Pipe} {g : Progress} {w : Raw} (h : Spaced schema config items gaps p g w)
      (words : Nat) (hroom : p.roomFor (.ofWords words) = (true, q)) :
      Spaced schema config items gaps q g { w with granted := words }
  | findsNoRoom {p q : Pipe} {g : Progress} {w : Raw} (h : Spaced schema config items gaps p g w)
      (words : Nat) (hroom : p.roomFor (.ofWords words) = (false, q)) :
      Spaced schema config items gaps q g w
  | stores {p : Pipe} {g : Progress} {w : Raw} (h : Spaced schema config items gaps p g w)
      (offset : Nat) (value : Int32) (hgranted : offset < w.granted) :
      Spaced schema config items gaps (p.storeAhead offset value) g w
  | claims {p q : Pipe} {g : Progress} {w : Raw} (h : Spaced schema config items gaps p g w)
      (words : Nat) (hfilled : g.left = []) (hgap : w.claimed + words ≤ gaps g.opened)
      (hclaim : p.claim words = (.ok (), q)) :
      Spaced schema config items gaps q g (w.claims words)
  | refusesToClaim {p q : Pipe} {g : Progress} {w : Raw} {fault : Fault}
      (h : Spaced schema config items gaps p g w) (words : Nat)
      (hclaim : p.claim words = (.error fault, q)) : Spaced schema config items gaps q g w
  | reads {p q : Pipe} {g : Progress} {w : Raw} (h : Spaced schema config items gaps p g w)
      (hskipped : w.skipped = gaps g.read) (hread : p.read = (.ok true, q)) :
      Spaced schema config items gaps q { g with read := g.read + 1 } w.reads
  -- A read before the raw words are skipped would take them for a piece, if they are published.
  | refusesToRead {p q : Pipe} {g : Progress} {w : Raw} {result : Except Fault Bool}
      (h : Spaced schema config items gaps p g w)
      (hready : w.skipped = gaps g.read ∨ p.ring.head.words ≤ p.consumer.next)
      (hread : p.read = (result, q)) (hrefused : result ≠ .ok true) :
      Spaced schema config items gaps q g w
  | skips {p q : Pipe} {g : Progress} {w : Raw} (h : Spaced schema config items gaps p g w)
      (words : Nat) (hgap : w.skipped + words ≤ gaps g.read) (hskip : p.skip words = (.ok (), q)) :
      Spaced schema config items gaps q g (w.skips words)
  | refusesToSkip {p q : Pipe} {g : Progress} {w : Raw} {fault : Fault}
      (h : Spaced schema config items gaps p g w) (words : Nat)
      (hskip : p.skip words = (.error fault, q)) : Spaced schema config items gaps q g w
  | releases {p : Pipe} {g : Progress} {w : Raw} (h : Spaced schema config items gaps p g w) :
      Spaced schema config items gaps p.releaseNow g w

section Runs

variable {schema : Schema} {config : Config} {items : List StreamItem} {gaps : Nat → Nat} {p : Pipe}
  {g : Progress} {w : Raw}

theorem Spaced.reachable (h : Spaced schema config items gaps p g w) :
    Reachable schema config p := by
  have hact : ∀ {p q : Pipe} (action : Action), Reachable schema config p →
      (p.act action).2 = q → Reachable schema config q :=
    fun action h heq => heq ▸ h.act action
  induction h with
  | built h => exact .built h
  | opens _ _ _ _ _ _ hopen ih | refusesToOpen _ _ _ hopen _ ih =>
    exact hact (.run (.openAt _ _)) ih (congrArg Prod.snd hopen)
  | writes _ _ _ _ _ _ hwrite ih | refusesToWrite _ _ _ _ _ _ hwrite ih =>
    exact hact (.run (.write _ _)) ih (congrArg Prod.snd hwrite)
  | publishes _ _ ih => exact ih.act (.run .publish)
  | marks _ _ _ _ hmarker ih | refusesToMark _ _ hmarker ih =>
    exact hact (.run .publishMarker) ih (congrArg Prod.snd hmarker)
  | findsRoom _ _ hroom ih | findsNoRoom _ _ hroom ih =>
    exact hact (.run (.roomFor _)) ih (congrArg Prod.snd hroom)
  | stores _ offset value _ ih => exact ih.act (.run (.storeAhead offset value))
  | claims _ _ _ _ hclaim ih | refusesToClaim _ _ hclaim ih =>
    exact hact (.run (.claim _)) ih (congrArg Prod.snd hclaim)
  | reads _ _ hread ih | refusesToRead _ _ hread _ ih =>
    exact hact (.run .read) ih (congrArg Prod.snd hread)
  | skips _ _ _ hskip ih | refusesToSkip _ _ hskip ih =>
    exact hact (.run (.skip _)) ih (congrArg Prod.snd hskip)
  | releases _ ih => exact ih.act (.run .releaseNow)

/-- A framed run has no raw words. -/
theorem Framed.spaced (h : Framed schema config items p g) :
    Spaced schema config items (fun _ => 0) p g .none := by
  induction h with
  | built h => exact .built h
  | opens _ bytes hnext hfilled hf hopen ih => exact ih.opens bytes hnext hfilled rfl hf hopen
  | refusesToOpen _ cursor bytes hopen hrefused ih =>
    exact ih.refusesToOpen cursor bytes hopen hrefused
  | writes _ position hopened hpiece hleft hloc hwrite ih =>
    exact ih.writes position hopened hpiece hleft hloc hwrite
  | refusesToWrite _ position hopened hpiece hleft hloc hwrite ih =>
    exact ih.refusesToWrite position hopened hpiece hleft hloc hwrite
  | publishes _ hfilled ih => exact ih.publishes hfilled
  | marks _ hnext hfilled hmarker ih => exact ih.marks hnext hfilled rfl hmarker
  | refusesToMark _ hfilled hmarker ih => exact ih.refusesToMark hfilled hmarker
  | reads _ hread ih => exact ih.reads rfl hread
  | refusesToRead _ hread hrefused ih => exact ih.refusesToRead (.inl rfl) hread hrefused
  | releases _ ih => exact ih.releases

end Runs

end Pipe

end FragmentPipe

import FragmentPipe.Proofs.Refusals
import FragmentPipe.Proofs.Stream.Marks

set_option autoImplicit false

/-!
# Runs that keep a ledger of their bytes

A producer may write the fields of its fragments in any order, several times or not at all. All that
frames its stream is that the fragments come in the order of well-formed messages, that the sequence
lengths are told before they are published, and that bytes are written while a fragment is filled.
Beside such a run a ledger is kept of the bytes that were written for each piece, and of the fields
whose values lie in it.
-/
namespace FragmentPipe

/-- How far a run has come, with the bytes that were written for each piece, the byte base that the
producer had once it had opened the piece, and the fields of the piece that were written. -/
structure Ledger where
  opened : Nat
  published : Nat
  read : Nat
  filling : Bool
  bytes : Nat → Nat
  base : Nat → Nat
  /-- Bytes of a field count only if they were written while its piece was the one opened last. -/
  written : Nat → Nat → Bool

namespace Ledger

def blank : Ledger := ⟨0, 0, 0, false, fun _ => 0, fun _ => 0, fun _ _ => false⟩

def update (row : Nat → Nat) (place entry : Nat) : Nat → Nat :=
  fun k => if k = place then entry else row k

def opens (b : Ledger) (base : Nat) : Ledger :=
  { b with
    opened := b.opened + 1, filling := true
    bytes := update b.bytes b.opened 0, base := update b.base b.opened base
    written := fun k position => k != b.opened && b.written k position }

def posts (b : Ledger) (k position count : Nat) : Ledger :=
  { b with
    bytes := update b.bytes (b.opened - 1) (b.bytes (b.opened - 1) + count)
    written := fun j other =>
      if j = k ∧ other = position then count = 0 ∨ b.opened = k + 1 else b.written j other }

def closes (b : Ledger) : Ledger := { b with filling := false }

def publishes (b : Ledger) : Ledger := { b.closes with published := b.opened }

def sum (row : Nat → Nat) (first : Nat) : Nat → Nat
  | 0 => 0
  | count + 1 => sum row first count + row (first + count)

def total (b : Ledger) (first count : Nat) : Nat := sum b.bytes first count

/-- Where the piece of the given number begins in the ring, or the row of pieces ends. -/
def mark (s : Schema) (l : List Piece) (b : Ledger) (k : Nat) : Mark :=
  ⟨(markAt s l k).words, b.total 0 k⟩

section

variable {s : Schema} {l : List Piece} {b c : Ledger} {j k : Nat}

theorem total_succ (b : Ledger) (first count : Nat) :
    b.total first (count + 1) = b.total first count + b.bytes (first + count) := rfl

theorem total_add (b : Ledger) (first count : Nat) :
    b.total 0 first + b.total first count = b.total 0 (first + count) := by
  induction count with
  | zero => rfl
  | succ count ih =>
    rw [total_succ, ← Nat.add_assoc, ih, ← Nat.add_assoc, total_succ, Nat.zero_add]

theorem total_congr {first count : Nat}
    (h : ∀ k, first ≤ k → k < first + count → c.bytes k = b.bytes k) :
    c.total first count = b.total first count := by
  induction count with
  | zero => rfl
  | succ count ih =>
    rw [total_succ, total_succ, h (first + count) (by omega) (by omega),
      ih fun k hlow hhigh => h k hlow (by omega)]

theorem mark_zero (s : Schema) (l : List Piece) (b : Ledger) : b.mark s l 0 = .origin := by
  refine Mark.ext ?_ rfl
  show (markAt s l 0).words = 0
  rw [markAt_zero]
  rfl

theorem mark_succ {piece : Piece} (h : l[k]? = some piece) :
    b.mark s l (k + 1) = b.mark s l k + ⟨(piece.extent s).words, b.bytes k⟩ := by
  refine Mark.ext ?_ ?_
  · show (markAt s l (k + 1)).words = _
    rw [markAt_succ h]
    rfl
  · show b.total 0 (k + 1) = _
    rw [total_succ, Nat.zero_add]
    rfl

theorem mark_mono (s : Schema) (l : List Piece) (b : Ledger) {j k : Nat} (h : j ≤ k) :
    b.mark s l j ≤ b.mark s l k := by
  obtain ⟨count, rfl⟩ := Nat.exists_eq_add_of_le h
  refine ⟨(markAt_mono s l h).1, ?_⟩
  show b.total 0 j ≤ b.total 0 (j + count)
  rw [← total_add]
  exact Nat.le_add_right _ _

theorem mark_congr (h : ∀ i, i < k → c.bytes i = b.bytes i) : c.mark s l k = b.mark s l k := by
  refine Mark.ext rfl (total_congr fun i _ hi => h i ?_)
  rwa [Nat.zero_add] at hi

theorem mark_opens (base : Nat) (hk : k ≤ b.opened) :
    (b.opens base).mark s l k = b.mark s l k :=
  mark_congr fun i hi => if_neg (show i ≠ b.opened by omega)

theorem bytes_opens (b : Ledger) (base : Nat) (hne : k ≠ b.opened) :
    (b.opens base).bytes k = b.bytes k :=
  if_neg hne

theorem base_opens (b : Ledger) (base : Nat) (hne : k ≠ b.opened) :
    (b.opens base).base k = b.base k :=
  if_neg hne

theorem written_opens (b : Ledger) (base : Nat) (hne : k ≠ b.opened) :
    (b.opens base).written k = b.written k := by
  funext position
  show (k != b.opened && b.written k position) = _
  rw [bne_iff_ne.2 hne, Bool.true_and]

theorem bytes_opens_self (b : Ledger) (base : Nat) : (b.opens base).bytes b.opened = 0 := if_pos rfl

theorem base_opens_self (b : Ledger) (base : Nat) : (b.opens base).base b.opened = base :=
  if_pos rfl

theorem written_opens_self (b : Ledger) (base : Nat) :
    (b.opens base).written b.opened = fun _ => false := by
  funext position
  show (b.opened != b.opened && b.written b.opened position) = false
  rw [bne_self_eq_false, Bool.false_and]

theorem mark_posts (j position count : Nat) (hk : k < b.opened) :
    (b.posts j position count).mark s l k = b.mark s l k :=
  mark_congr fun i hi => if_neg (show i ≠ b.opened - 1 by omega)

theorem le_bytes_posts (b : Ledger) (j position count k : Nat) :
    b.bytes k ≤ (b.posts j position count).bytes k := by
  show b.bytes k ≤ update b.bytes (b.opened - 1) (b.bytes (b.opened - 1) + count) k
  unfold update
  split
  · rename_i hlast
    rw [hlast]
    exact Nat.le_add_right _ _
  · exact Nat.le_refl _

theorem bytes_posts_opened (j position count : Nat) (h : b.opened = k + 1) :
    (b.posts j position count).bytes k = b.bytes k + count := by
  show update b.bytes (b.opened - 1) (b.bytes (b.opened - 1) + count) k = _
  rw [h, Nat.add_sub_cancel]
  exact if_pos rfl

theorem mark_posts_opened (j position count : Nat) (h : b.opened = k + 1) :
    (b.posts j position count).mark s l (k + 1) = b.mark s l (k + 1) + .ofBytes count := by
  have hbefore : (b.posts j position count).total 0 k = b.total 0 k :=
    congrArg Mark.bytes (mark_posts (s := s) (l := l) j position count
      (show k < b.opened by omega))
  refine Mark.ext rfl ?_
  show (b.posts j position count).total 0 (k + 1) = b.total 0 (k + 1) + count
  rw [total_succ, total_succ, Nat.zero_add, hbefore, bytes_posts_opened _ _ _ h, Nat.add_assoc]

theorem written_posts_self (b : Ledger) (k position count : Nat) :
    (b.posts k position count).written k position = decide (count = 0 ∨ b.opened = k + 1) :=
  if_pos ⟨rfl, rfl⟩

theorem written_posts_of_ne (b : Ledger) {position count i : Nat} (hne : j ≠ k ∨ i ≠ position) :
    (b.posts k position count).written j i = b.written j i :=
  if_neg fun hsame => hne.elim (· hsame.1) (· hsame.2)

end

end Ledger

def Ring.Tells (r : Ring) (s : Schema) (start : Nat) : Piece → Prop
  | .marker => True
  | .fragment _ _ d => ∀ f, s.fragment? d.cursor = some f → r.lengthOf s start f = d.length s

namespace Pipe

def TellsLengths (p : Pipe) (s : Schema) (l : List Piece) (b : Ledger) : Prop :=
  ∀ k piece, l[k]? = some piece → b.published ≤ k → k < b.opened →
    p.ring.Tells s (markAt s l k).words piece

/-- One step of a run that frames a stream, with what is entered in its ledger. -/
inductive Books (s : Schema) (l : List Piece) (p : Pipe) (b : Ledger) : Pipe → Ledger → Prop where
  | opens {q : Pipe} {m : MessageData} {index : Nat} {d : FragmentData} (bytes : Nat)
      (hnext : l[b.opened]? = some (.fragment m index d))
      (hopen : p.openAt d.cursor bytes = (.ok true, q)) :
      Books s l p b q (b.opens q.producer.byteBase)
  | writes {q : Pipe} {k : Nat} {m : MessageData} {index : Nat} {d : FragmentData} {loc : Locator}
      {value : Value} (position : Nat) (hpiece : l[k]? = some (.fragment m index d))
      (hunpublished : b.published ≤ k) (hopened : k < b.opened)
      (hfield : s.HasField d.cursor position loc value.shape)
      (hstart : p.producer.starts[loc.depth]? = some (markAt s l k).words)
      (hfilling : 0 < value.byteLength → b.filling = true)
      (hwrite : p.write loc value = (.ok (), q)) :
      Books s l p b q (b.posts k position value.byteLength)
  | publishes (htells : p.TellsLengths s l b) : Books s l p b p.publish b.publishes
  | marks {q : Pipe} (htells : p.TellsLengths s l b) (hnext : l[b.opened]? = some .marker)
      (hmarker : p.publishMarker = (true, q)) :
      Books s l p b q (b.opens q.producer.byteBase).publishes
  | refusesToMark {q : Pipe} (hmarker : p.publishMarker = (false, q)) : Books s l p b q b.closes
  | reads {q : Pipe} (hread : p.read = (.ok true, q)) :
      Books s l p b q { b with read := b.read + 1 }
  | releases : Books s l p b p.releaseNow b
  | refuses (action : Action) (hne : action ≠ .run .publishMarker) (hrefuses : p.Refuses action) :
      Books s l p b (p.act action).2 b

theorem Books.acts {s : Schema} {l : List Piece} {p q : Pipe} {b c : Ledger}
    (h : p.Books s l b q c) : ∃ action, q = (p.act action).2 := by
  cases h with
  | opens _ _ hopen => exact ⟨.run (.openAt _ _), (congrArg Prod.snd hopen).symm⟩
  | writes _ _ _ _ _ _ _ hwrite => exact ⟨.run (.write _ _), (congrArg Prod.snd hwrite).symm⟩
  | publishes => exact ⟨.run .publish, rfl⟩
  | marks _ _ hmarker | refusesToMark hmarker =>
    exact ⟨.run .publishMarker, (congrArg Prod.snd hmarker).symm⟩
  | reads hread => exact ⟨.run .read, (congrArg Prod.snd hread).symm⟩
  | releases => exact ⟨.run .releaseNow, rfl⟩
  | refuses action => exact ⟨action, rfl⟩

/-- The states of a pipe over all runs that frame a stream, each with its ledger. -/
inductive Booked (schema : Schema) (config : Config) (items : List StreamItem) :
    Pipe → Ledger → Prop where
  | built {p : Pipe} (h : build schema config = .ok p) : Booked schema config items p .blank
  | step {p q : Pipe} {b c : Ledger} (h : Booked schema config items p b)
      (hstep : p.Books schema (piecesOf items) b q c) : Booked schema config items q c

theorem Booked.reachable {schema : Schema} {config : Config} {items : List StreamItem} {p : Pipe}
    {b : Ledger} (h : Booked schema config items p b) : Reachable schema config p := by
  induction h with
  | built h => exact .built h
  | step _ hstep ih =>
    obtain ⟨action, rfl⟩ := hstep.acts
    exact ih.act action

end Pipe

end FragmentPipe

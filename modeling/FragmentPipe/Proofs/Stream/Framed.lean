import FragmentPipe.Proofs.Stream.Stored

set_option autoImplicit false

/-!
# Framed runs of a stream

In a framed run the producer writes the pieces of a stream one after the other: it opens a fragment,
writes each of its fields once and only then publishes it or opens the next, and it stores a marker
between messages. The consumer reads and releases whenever it likes. Any operation may be refused,
and is then tried again later.
-/
namespace FragmentPipe

/-- How far a run has come in its stream, and the fields that are left of the piece opened last. -/
structure Progress where
  opened : Nat
  left : List Nat
  published : Nat
  read : Nat

namespace Pipe

/-- The states of a pipe over all framed runs of a stream, each with how far the run has come. -/
inductive Framed (schema : Schema) (config : Config) (items : List StreamItem) :
    Pipe → Progress → Prop where
  | built {p : Pipe} (h : build schema config = .ok p) :
      Framed schema config items p ⟨0, [], 0, 0⟩
  | opens {p q : Pipe} {g : Progress} {m : MessageData} {index : Nat} {d : FragmentData}
      {f : Fragment} (h : Framed schema config items p g) (bytes : Nat)
      (hnext : (piecesOf items)[g.opened]? = some (.fragment m index d)) (hfilled : g.left = [])
      (hf : schema.fragment? d.cursor = some f) (hopen : p.openAt d.cursor bytes = (.ok true, q)) :
      Framed schema config items q { g with opened := g.opened + 1, left := schema.fieldsOf f }
  | refusesToOpen {p q : Pipe} {g : Progress} {result : Except Fault Bool}
      (h : Framed schema config items p g) (cursor : Int) (bytes : Nat)
      (hopen : p.openAt cursor bytes = (result, q)) (hrefused : result ≠ .ok true) :
      Framed schema config items q g
  | writes {p q : Pipe} {g : Progress} {k : Nat} {m : MessageData} {index : Nat}
      {d : FragmentData} {loc : Locator} (h : Framed schema config items p g) (position : Nat)
      (hopened : g.opened = k + 1) (hpiece : (piecesOf items)[k]? = some (.fragment m index d))
      (hleft : position ∈ g.left) (hloc : schema.locator? position = some loc)
      (hwrite : p.write loc (d.value position) = (.ok (), q)) :
      Framed schema config items q { g with left := g.left.erase position }
  | refusesToWrite {p q : Pipe} {g : Progress} {k : Nat} {m : MessageData} {index : Nat}
      {d : FragmentData} {loc : Locator} {fault : Fault}
      (h : Framed schema config items p g) (position : Nat) (hopened : g.opened = k + 1)
      (hpiece : (piecesOf items)[k]? = some (.fragment m index d)) (hleft : position ∈ g.left)
      (hloc : schema.locator? position = some loc)
      (hwrite : p.write loc (d.value position) = (.error fault, q)) :
      Framed schema config items q g
  | publishes {p : Pipe} {g : Progress} (h : Framed schema config items p g)
      (hfilled : g.left = []) :
      Framed schema config items p.publish { g with published := g.opened }
  | marks {p q : Pipe} {g : Progress} (h : Framed schema config items p g)
      (hnext : (piecesOf items)[g.opened]? = some .marker) (hfilled : g.left = [])
      (hmarker : p.publishMarker = (true, q)) :
      Framed schema config items q { g with opened := g.opened + 1, published := g.opened + 1 }
  | refusesToMark {p q : Pipe} {g : Progress} (h : Framed schema config items p g)
      (hfilled : g.left = []) (hmarker : p.publishMarker = (false, q)) :
      Framed schema config items q g
  | reads {p q : Pipe} {g : Progress} (h : Framed schema config items p g)
      (hread : p.read = (.ok true, q)) : Framed schema config items q { g with read := g.read + 1 }
  | refusesToRead {p q : Pipe} {g : Progress} {result : Except Fault Bool}
      (h : Framed schema config items p g) (hread : p.read = (result, q))
      (hrefused : result ≠ .ok true) : Framed schema config items q g
  | releases {p : Pipe} {g : Progress} (h : Framed schema config items p g) :
      Framed schema config items p.releaseNow g

theorem Framed.reachable {schema : Schema} {config : Config} {items : List StreamItem} {p : Pipe}
    {g : Progress} (h : Framed schema config items p g) : Reachable schema config p := by
  have hact : ∀ {p q : Pipe} (action : Action), Reachable schema config p →
      (p.act action).2 = q → Reachable schema config q :=
    fun action h heq => heq ▸ h.act action
  induction h with
  | built h => exact .built h
  | opens _ _ _ _ _ hopen ih | refusesToOpen _ _ _ hopen _ ih =>
    exact hact (.run (.openAt _ _)) ih (congrArg Prod.snd hopen)
  | writes _ _ _ _ _ _ hwrite ih | refusesToWrite _ _ _ _ _ _ hwrite ih =>
    exact hact (.run (.write _ _)) ih (congrArg Prod.snd hwrite)
  | publishes _ _ ih => exact ih.act (.run .publish)
  | marks _ _ _ hmarker ih | refusesToMark _ _ hmarker ih =>
    exact hact (.run .publishMarker) ih (congrArg Prod.snd hmarker)
  | reads _ hread ih | refusesToRead _ hread _ ih =>
    exact hact (.run .read) ih (congrArg Prod.snd hread)
  | releases _ ih => exact ih.act (.run .releaseNow)

end Pipe

end FragmentPipe

import FragmentPipe.Command
import FragmentPipe.Snapshot

set_option autoImplicit false

namespace FragmentPipe

structure Network where
  pipes : Array Pipe

inductive Step where
  | command (pipe : Nat) (command : Command)
  | query (pipe : Nat) (query : Query)
  | relay (source target : Nat)
  /-- Put the producer of one pipe and the consumer of another together. -/
  | join (producer consumer : Nat)
deriving DecidableEq, Repr

def Step.focus : Step → Nat
  | .command pipe _ | .query pipe _ => pipe
  | .relay _ target => target
  | .join producer _ => producer

namespace Network

def step (n : Network) (s : Step) : Except Fault Reply × Network :=
  match s with
  | .command i command =>
    match n.pipes[i]? with
    | none => (.error .outOfRange, n)
    | some p =>
      let (reply, p) := p.run command
      (reply, ⟨n.pipes.setIfInBounds i p⟩)
  | .query i query =>
    match n.pipes[i]? with
    | none => (.error .outOfRange, n)
    | some p => (p.ask query, n)
  | .relay source target =>
    match n.pipes[source]?, n.pipes[target]? with
    | some origin, some p =>
      let (reply, p) :=
        Pipe.replying .flag (if source = target then p.relayWithin else p.relayFrom origin)
      (reply, ⟨n.pipes.setIfInBounds target p⟩)
    | _, _ => (.error .outOfRange, n)
  | .join producer consumer =>
    if producer = consumer then (.ok .done, n) else (.error (.error .foreignHalf), n)

def snapshot? (n : Network) (i : Nat) : Option Snapshot := n.pipes[i]?.map Pipe.snapshot

end Network

end FragmentPipe

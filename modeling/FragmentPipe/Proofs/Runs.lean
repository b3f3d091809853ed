import FragmentPipe.Proofs.Outcomes

set_option autoImplicit false

/-!
# Runs of a pipe

A run begins with a pipe as it is built and takes any actions in any order: every command, and a
fragment passed on from another pipe or from the same one. What the producing half does leaves the
consumer as it is.
-/
namespace FragmentPipe

inductive Action where
  | run (command : Command)
  | relayFrom (source : Pipe)
  | relayWithin

namespace Pipe

def act (p : Pipe) : Action → Except Fault Reply × Pipe
  | .run command => p.run command
  | .relayFrom source => replying .flag (p.relayFrom source)
  | .relayWithin => replying .flag p.relayWithin

/-- The states of a pipe built for a schema and a configuration, over all runs. -/
inductive Reachable (schema : Schema) (config : Config) : Pipe → Prop where
  | built {p : Pipe} (h : build schema config = .ok p) : Reachable schema config p
  | act {p : Pipe} (h : Reachable schema config p) (action : Action) :
      Reachable schema config (p.act action).2

end Pipe

def Action.isProducing : Action → Bool
  | .run (.openAt _ _) | .run (.write _ _) | .run (.storeAhead _ _) | .run (.claim _)
  | .run .publish | .run .publishMarker | .run .rebaseWrites | .run (.roomFor _) => true
  | .run (.isVisible _) | .run .read | .run .readMessage | .run .readContinuation
  | .run .releaseNow | .run .rebaseReads | .run (.skip _) | .run .reset => false
  | .relayFrom _ | .relayWithin => true

/-- Actions after which the reader may stand elsewhere in the script. -/
def Action.movesReader : Action → Bool
  | .run .read | .run .readMessage | .run .readContinuation | .run .reset => true
  | _ => false

namespace Pipe

structure KeepsConsumer (p q : Pipe) : Prop where
  consumer : q.consumer = p.consumer
  schema : q.schema = p.schema
  config : q.config = p.config

theorem KeepsConsumer.refl (p : Pipe) : p.KeepsConsumer p := ⟨rfl, rfl, rfl⟩

theorem KeepsConsumer.trans {p q r : Pipe} (hq : p.KeepsConsumer q) (hr : q.KeepsConsumer r) :
    p.KeepsConsumer r :=
  ⟨hr.consumer.trans hq.consumer, hr.schema.trans hq.schema, hr.config.trans hq.config⟩

section Producing

variable (p : Pipe)

theorem keepsConsumer_glance (seen : Mark) : p.KeepsConsumer (p.glance seen) := ⟨rfl, rfl, rfl⟩

theorem keepsConsumer_roomFor (request : Mark) : p.KeepsConsumer (p.roomFor request).2 := by
  unfold roomFor
  split <;> exact ⟨rfl, rfl, rfl⟩

theorem keepsConsumer_storeTrailer : p.KeepsConsumer p.storeTrailer := by
  unfold storeTrailer
  split <;> exact ⟨rfl, rfl, rfl⟩

theorem keepsConsumer_publish : p.KeepsConsumer p.publish :=
  p.keepsConsumer_storeTrailer.trans ⟨rfl, rfl, rfl⟩

theorem keepsConsumer_openFragment (fragment : Fragment) (depth : Nat) :
    p.KeepsConsumer (p.openFragment fragment depth) := by
  apply p.keepsConsumer_storeTrailer.trans
  unfold openFragment
  cases fragment.startsMessage <;> exact ⟨rfl, rfl, rfl⟩

theorem keepsConsumer_openAt (cursor : Int) (bytes : Nat) :
    p.KeepsConsumer (p.openAt cursor bytes).2 := by
  rcases p.openAt_cases cursor bytes with ⟨-, h⟩ | ⟨fragment, -, ⟨seen, -, -, h⟩ | ⟨-, h⟩⟩
  · rw [h]
    exact .refl p
  · rcases h with ⟨-, h⟩ | ⟨-, h⟩
    · rw [h]
      exact (p.keepsConsumer_glance seen).trans (keepsConsumer_openFragment _ fragment _)
    · rw [h]
      exact p.keepsConsumer_glance seen
  · rw [h]
    exact p.keepsConsumer_glance _

theorem keepsConsumer_publishMarker : p.KeepsConsumer p.publishMarker.2 := by
  rcases p.publishMarker_cases with ⟨seen, -, -, h⟩ | ⟨-, h⟩
  · rw [h]
    refine p.keepsConsumer_storeTrailer.trans ((keepsConsumer_glance _ seen).trans ?_)
    refine .trans ?_ (keepsConsumer_publish _)
    exact ⟨rfl, rfl, rfl⟩
  · rw [h]
    exact p.keepsConsumer_storeTrailer.trans (keepsConsumer_glance _ _)

theorem keepsConsumer_storeAhead (offset : Nat) (value : Int32) :
    p.KeepsConsumer (p.storeAhead offset value) := ⟨rfl, rfl, rfl⟩

theorem keepsConsumer_claim (words : Nat) : p.KeepsConsumer (p.claim words).2 := by
  rcases p.claim_cases words with ⟨seen, -, -, h⟩ | ⟨-, cause, h⟩
  · rw [h]
    refine (p.keepsConsumer_glance seen).trans ((keepsConsumer_storeTrailer _).trans ?_)
    exact ⟨rfl, rfl, rfl⟩
  · rw [h]
    exact p.keepsConsumer_glance _

theorem keepsConsumer_storeWords (loc : Locator) (words : List Int32) :
    p.KeepsConsumer (p.storeWords loc words).2 := by
  rcases p.storeWords_cases loc words with ⟨start, -, h⟩ | ⟨-, h⟩
  · rw [h]
    exact ⟨rfl, rfl, rfl⟩
  · rw [h]
    exact .refl p

theorem keepsConsumer_write (loc : Locator) (value : Value) :
    p.KeepsConsumer (p.write loc value).2 := by
  cases value with
  | word value => exact p.keepsConsumer_storeWords loc _
  | long value => exact p.keepsConsumer_storeWords loc _
  | decimal exponent mantissa => exact p.keepsConsumer_storeWords loc _
  | bytes data =>
    show p.KeepsConsumer (p.storeBytes loc data).2
    rcases p.storeBytes_cases loc data with
      ⟨seen, -, -, ⟨cause, h⟩ | ⟨-, h⟩ | ⟨start, -, -, h⟩⟩ | ⟨-, cause, h⟩
    · rw [h]
      exact p.keepsConsumer_glance seen
    · rw [h]
      exact p.keepsConsumer_glance seen
    · rw [h]
      exact ⟨rfl, rfl, rfl⟩
    · rw [h]
      exact p.keepsConsumer_glance _

theorem keepsConsumer_append (c : Consumer) (transfer : Ring → Mark → Ring) :
    p.KeepsConsumer (p.append c transfer) := by
  unfold append
  refine p.keepsConsumer_publish.trans (.trans ?_ (keepsConsumer_publish _))
  cases c.isNewMessage <;> exact ⟨rfl, rfl, rfl⟩

theorem keepsConsumer_accept (c : Consumer) (transfer : Ring → Mark → Ring) :
    p.KeepsConsumer (p.accept c transfer).2 := by
  rcases p.accept_cases c transfer with ⟨-, h⟩ | ⟨-, ⟨seen, -, -, h⟩ | ⟨-, h⟩⟩
  · rw [h]
    exact .refl p
  · rw [h]
    exact (p.keepsConsumer_glance seen).trans (keepsConsumer_append _ _ _)
  · rw [h]
    exact p.keepsConsumer_glance _

theorem keepsConsumer_of_isProducing {action : Action} (h : action.isProducing = true) :
    p.KeepsConsumer (p.act action).2 := by
  cases action with
  | relayFrom source => exact p.keepsConsumer_accept _ _
  | relayWithin => exact p.keepsConsumer_accept _ _
  | run command =>
    cases command with
    | openAt cursor bytes => exact p.keepsConsumer_openAt cursor bytes
    | write loc value => exact p.keepsConsumer_write loc value
    | storeAhead offset value => exact p.keepsConsumer_storeAhead offset value
    | claim words => exact p.keepsConsumer_claim words
    | publish => exact p.keepsConsumer_publish
    | publishMarker => exact p.keepsConsumer_publishMarker
    | rebaseWrites => exact ⟨rfl, rfl, rfl⟩
    | roomFor request => exact p.keepsConsumer_roomFor request
    | isVisible | read | readMessage | readContinuation | releaseNow | rebaseReads | skip | reset =>
      cases h

end Producing

structure KeepsReader (p q : Pipe) : Prop where
  schema : q.schema = p.schema
  cursor : q.consumer.cursor = p.consumer.cursor
  nextCursor : q.consumer.nextCursor = p.consumer.nextCursor
  messageId : q.consumer.messageId = p.consumer.messageId
  sequences : q.consumer.sequences = p.consumer.sequences
  starts : q.consumer.starts = p.consumer.starts

theorem KeepsConsumer.keepsReader {p q : Pipe} (h : p.KeepsConsumer q) : p.KeepsReader q := by
  obtain ⟨hconsumer, hschema, -⟩ := h
  exact ⟨hschema, by rw [hconsumer], by rw [hconsumer], by rw [hconsumer], by rw [hconsumer],
    by rw [hconsumer]⟩

theorem Unmoved.keepsReader {p q : Pipe} (h : p.Unmoved q) : p.KeepsReader q := by
  obtain ⟨seen, -, rfl⟩ := h
  exact ⟨rfl, rfl, rfl, rfl, rfl, rfl⟩

theorem keepsReader_act (p : Pipe) {action : Action} (h : action.movesReader = false) :
    p.KeepsReader (p.act action).2 := by
  by_cases hproducing : action.isProducing = true
  · exact (p.keepsConsumer_of_isProducing hproducing).keepsReader
  · cases action with
    | relayFrom source | relayWithin => exact absurd rfl hproducing
    | run command =>
      cases command with
      | openAt | write | storeAhead | claim | publish | publishMarker | rebaseWrites | roomFor =>
        exact absurd rfl hproducing
      | read | readMessage | readContinuation | reset => cases h
      | isVisible target =>
        show p.KeepsReader (p.isVisible target).2
        obtain ⟨seen, hseen, ⟨-, h⟩ | ⟨-, -, h⟩⟩ := p.isVisible_cases target
        · rw [h]
          exact Unmoved.keepsReader ⟨seen, hseen, rfl⟩
        · rw [h]
          exact Unmoved.keepsReader ⟨seen, hseen, rfl⟩
      | releaseNow =>
        show p.KeepsReader p.releaseNow
        unfold releaseNow release
        split <;> exact ⟨rfl, rfl, rfl, rfl, rfl, rfl⟩
      | rebaseReads => exact ⟨rfl, rfl, rfl, rfl, rfl, rfl⟩
      | skip words =>
        show p.KeepsReader (p.skip words).2
        obtain ⟨q, ⟨seen, -, rfl⟩, ⟨-, h⟩ | ⟨cause, h⟩⟩ := p.skip_cases words
        · rw [h]
          exact ⟨rfl, rfl, rfl, rfl, rfl, rfl⟩
        · rw [h]
          exact ⟨rfl, rfl, rfl, rfl, rfl, rfl⟩

end Pipe

end FragmentPipe

import FragmentPipe.Proofs.Positions
import FragmentPipe.Proofs.Reader.Batches
import FragmentPipe.Proofs.Writer.Published

set_option autoImplicit false

/-!
# The releases of a run

A run is watched through what can be observed of it: which reads prepared a fragment, which actions
asked for a release, and when the count of releases grew. This gives a log of the batches that were
handed back. Whatever the stream holds, a batch that was handed back by a read is exactly as large
as the configuration says, and one that was handed back on demand is smaller.
-/
namespace FragmentPipe

/-- The fragments read between two releases, and whether the later one was asked for. -/
structure Batch where
  fragments : Nat
  onDemand : Bool
deriving DecidableEq, Repr

namespace Batch

def Meets (size : Int) (b : Batch) : Prop :=
  if b.onDemand then b.fragments ≤ size - 1 else b.fragments = size

theorem meets_full {size : Int} {fragments : Nat} (h : fragments = size) :
    Meets size ⟨fragments, false⟩ := h

theorem meets_onDemand {size : Int} {fragments : Nat} (h : fragments ≤ size - 1) :
    Meets size ⟨fragments, true⟩ := h

def total : List Batch → Nat
  | [] => 0
  | batch :: rest => batch.fragments + total rest

theorem total_append (batches : List Batch) (batch : Batch) :
    total (batches ++ [batch]) = total batches + batch.fragments := by
  induction batches with
  | nil => exact Nat.add_comm _ _
  | cons first rest ih => rw [List.cons_append, total, ih, total, Nat.add_assoc]

theorem total_of_full {size : Int} {batches : List Batch}
    (hmeets : ∀ batch ∈ batches, batch.Meets size)
    (hfull : ∀ batch ∈ batches, batch.onDemand = false) :
    (total batches : Int) = size * batches.length := by
  induction batches with
  | nil => exact (Int.mul_zero size).symm
  | cons batch rest ih =>
    have hfirst := hmeets batch List.mem_cons_self
    rw [Meets, if_neg (by simp [hfull batch List.mem_cons_self])] at hfirst
    have hrest := ih (fun b hb => hmeets b (List.mem_cons_of_mem _ hb))
      fun b hb => hfull b (List.mem_cons_of_mem _ hb)
    calc (total (batch :: rest) : Int)
      _ = batch.fragments + total rest := Int.natCast_add _ _
      _ = size + size * rest.length := by rw [hfirst, hrest]
      _ = size * (batch :: rest).length := by
        rw [List.length_cons, Int.natCast_succ, Int.mul_add, Int.mul_one, Int.add_comm]

end Batch

structure ReleaseLog where
  batches : List Batch
  since : Nat
  demands : Nat
deriving DecidableEq, Repr

def ReleaseLog.empty : ReleaseLog := ⟨[], 0, 0⟩

namespace Action

def fragmentsIn (action : Action) : Except Fault Reply → Nat
  | .ok (.flag true) => action.isRead.toNat
  | _ => 0

def asksRelease : Action → Bool
  | .run .releaseNow => true
  | _ => false

end Action

namespace Pipe

/-- The log after an action; a batch is handed back when the count of releases grows. -/
def logAfter (p : Pipe) (log : ReleaseLog) (action : Action) : ReleaseLog :=
  match action with
  | .run .reset => .empty
  | action =>
    let result := p.act action
    let since := log.since + action.fragmentsIn result.1
    let demands := log.demands + action.asksRelease.toNat
    if result.2.consumer.releaseCount = p.consumer.releaseCount then ⟨log.batches, since, demands⟩
    else ⟨log.batches ++ [⟨since, action.asksRelease⟩], 0, demands⟩

inductive Logged (schema : Schema) (config : Config) : Pipe → ReleaseLog → Prop where
  | built {p : Pipe} (h : build schema config = .ok p) : Logged schema config p .empty
  | act {p : Pipe} {log : ReleaseLog} (h : Logged schema config p log) (action : Action) :
      Logged schema config (p.act action).2 (p.logAfter log action)

structure KeepsBatch (p q : Pipe) : Prop where
  batchRelease : q.consumer.batchRelease = p.consumer.batchRelease
  batchCountdown : q.consumer.batchCountdown = p.consumer.batchCountdown
  releaseCount : q.consumer.releaseCount = p.consumer.releaseCount
  fragmentsRead : q.consumer.fragmentsRead = p.consumer.fragmentsRead
  released : q.ring.tail = p.ring.tail

structure Lingers (p q : Pipe) : Prop extends p.KeepsBatch q where
  tail : q.consumer.tail = p.consumer.tail
  next : q.consumer.next = p.consumer.next
  fragmentBytes : q.consumer.fragmentBytes = p.consumer.fragmentBytes

def Leaves (p : Pipe) (words : Nat) (q : Pipe) : Prop :=
  q.consumer.tail = ⟨p.consumer.next + words, p.consumer.tail.bytes + p.consumer.fragmentBytes⟩

/-- What an action other than a reset does to the place of the consumer and to the batch being
read. -/
inductive Deals (p : Pipe) (action : Action) : Except Fault Reply × Pipe → Prop where
  | lingers {reply : Except Fault Reply} {q : Pipe} (hread : action.fragmentsIn reply = 0)
      (hlingers : p.Lingers q) : Deals p action (reply, q)
  | reads {item : ReadItem} {bytes : Nat} {q : Pipe} (hread : action.isRead = true)
      (hitem : p.Announces item ∨ p.Continues item)
      (hprepares : p.Prepares p.consumer.next item bytes q) : Deals p action (.ok (.flag true), q)
  | skips {reply : Except Fault Reply} {words : Nat} {q : Pipe}
      (hread : action.fragmentsIn reply = 0) (hkeeps : p.KeepsBatch q) (hleaves : p.Leaves words q)
      (hbytes : q.consumer.fragmentBytes = 0) : Deals p action (reply, q)
  | releases {reply : Except Fault Reply} (haction : action = .run .releaseNow)
      (hread : action.fragmentsIn reply = 0) : Deals p action (reply, p.release)

section Steps

variable {p q : Pipe} {action : Action}

theorem lingers_of_eq (hconsumer : q.consumer = p.consumer) (htail : q.ring.tail = p.ring.tail) :
    p.Lingers q :=
  ⟨⟨by rw [hconsumer], by rw [hconsumer], by rw [hconsumer], by rw [hconsumer], htail⟩,
    by rw [hconsumer], by rw [hconsumer], by rw [hconsumer]⟩

theorem Unmoved.lingers (h : p.Unmoved q) : p.Lingers q := by
  obtain ⟨seen, -, rfl⟩ := h
  exact ⟨⟨rfl, rfl, rfl, rfl, rfl⟩, rfl, rfl, rfl⟩

theorem fragmentsIn_of_not_isRead (h : action.isRead = false) (reply : Except Fault Reply) :
    action.fragmentsIn reply = 0 := by
  unfold Action.fragmentsIn
  split
  · rw [h]
    rfl
  · rfl

theorem fragmentsIn_of_isRead (h : action.isRead = true) :
    action.fragmentsIn (.ok (.flag true)) = 1 := by
  rw [Action.fragmentsIn, h]
  rfl

theorem isRead_of_isProducing (h : action.isProducing = true) : action.isRead = false := by
  cases action with
  | relayFrom source | relayWithin => rfl
  | run command => cases command <;> first | rfl | cases h

theorem asksRelease_of_isRead (h : action.isRead = true) : action.asksRelease = false := by
  cases action with
  | relayFrom source | relayWithin => rfl
  | run command => cases command <;> first | rfl | cases h

theorem Unmoved.deals (h : p.Unmoved q) {result : Except Fault Bool} (hne : result ≠ .ok true) :
    p.Deals action (replying .flag (result, q)) := by
  refine .lingers ?_ h.lingers
  cases result with
  | error fault => rfl
  | ok value =>
    cases value with
    | false => rfl
    | true => exact absurd rfl hne

theorem deals_readMessage (hread : action.isRead = true) :
    p.Deals action (replying .flag p.readMessage) := by
  rcases p.readMessage_cases with ⟨item, bytes, q, hitem, hprepares, h⟩ |
    ⟨q, hunmoved, ⟨-, h⟩ | ⟨cause, -, h⟩ | ⟨-, h⟩⟩ <;> rw [h]
  · exact .reads hread (.inl hitem) hprepares
  · exact hunmoved.deals (by simp)
  · exact hunmoved.deals (by simp)
  · exact hunmoved.deals (by simp)

theorem deals_readContinuation (hread : action.isRead = true) :
    p.Deals action (replying .flag p.readContinuation) := by
  rcases p.readContinuation_cases with ⟨item, bytes, q, hitem, hprepares, h⟩ | ⟨-, h⟩ |
    ⟨q, hunmoved, ⟨-, h⟩ | ⟨cause, -, h⟩ | ⟨-, h⟩⟩ <;> rw [h]
  · exact .reads hread (.inr hitem) hprepares
  · exact Unmoved.deals ⟨p.consumer.seenHead, .inl rfl, rfl⟩ (by simp)
  · exact hunmoved.deals (by simp)
  · exact hunmoved.deals (by simp)
  · exact hunmoved.deals (by simp)

theorem deals_skip (words : Nat) :
    p.Deals (.run (.skip words)) (replying (fun _ => .done) (p.skip words)) := by
  obtain ⟨q, hunmoved, ⟨-, h⟩ | ⟨cause, h⟩⟩ := p.skip_cases words <;> rw [h]
  · obtain ⟨seen, -, rfl⟩ := hunmoved
    exact .skips rfl ⟨rfl, rfl, rfl, rfl, rfl⟩ rfl rfl
  · exact .lingers rfl hunmoved.lingers

/-- Every action but a reset leaves the consumer where it is, moves it onto an item, moves it over
some words, or releases what it has left behind. -/
theorem deals_act (hne : action ≠ .run .reset) : p.Deals action (p.act action) := by
  cases hproducing : action.isProducing with
  | true =>
    exact .lingers (fragmentsIn_of_not_isRead (isRead_of_isProducing hproducing) _)
      (lingers_of_eq (p.keepsConsumer_of_isProducing hproducing).consumer
        (p.goesOn_of_isProducing hproducing).tail)
  | false =>
    cases action with
    | relayFrom source | relayWithin => cases hproducing
    | run command =>
      cases command with
      | openAt | write | storeAhead | claim | publish | publishMarker | rebaseWrites | roomFor =>
        cases hproducing
      | reset => exact absurd rfl hne
      | readMessage => exact deals_readMessage rfl
      | readContinuation => exact deals_readContinuation rfl
      | read =>
        show p.Deals _ (replying .flag p.read)
        unfold read
        split
        · exact deals_readMessage rfl
        · exact deals_readContinuation rfl
      | rebaseReads => exact .lingers rfl ⟨⟨rfl, rfl, rfl, rfl, rfl⟩, rfl, rfl, rfl⟩
      | isVisible target =>
        refine .lingers (fragmentsIn_of_not_isRead rfl _) (Unmoved.lingers ?_)
        obtain ⟨seen, hseen, ⟨-, h⟩ | ⟨-, -, h⟩⟩ := p.isVisible_cases target
        · exact ⟨seen, hseen, congrArg Prod.snd h⟩
        · exact ⟨seen, hseen, congrArg Prod.snd h⟩
      | skip words => exact deals_skip words
      | releaseNow =>
        show p.Deals _ (.ok .done, p.releaseNow)
        rcases p.releaseNow_cases with ⟨-, -, h⟩ | h <;> rw [h]
        · exact .lingers rfl (lingers_of_eq rfl rfl)
        · exact .releases rfl rfl

end Steps

structure Logs (p : Pipe) (size : Int) (log : ReleaseLog) : Prop where
  batchRelease : p.consumer.batchRelease = size
  batchCountdown : p.consumer.batchCountdown = size - log.since
  since_lt : log.since < size
  releaseCount : p.consumer.releaseCount = log.batches.length
  fragmentsRead : p.consumer.fragmentsRead = Batch.total log.batches + log.since
  batches : ∀ batch ∈ log.batches, batch.Meets size
  demands : log.demands = 0 → ∀ batch ∈ log.batches, batch.onDemand = false

section Log

variable {p q : Pipe} {size : Int} {log : ReleaseLog} {action : Action}

theorem logAfter_eq (p : Pipe) (log : ReleaseLog) (hne : action ≠ .run .reset) :
    p.logAfter log action =
      if (p.act action).2.consumer.releaseCount = p.consumer.releaseCount then
        ⟨log.batches, log.since + action.fragmentsIn (p.act action).1,
          log.demands + action.asksRelease.toNat⟩
      else
        ⟨log.batches ++ [⟨log.since + action.fragmentsIn (p.act action).1, action.asksRelease⟩], 0,
          log.demands + action.asksRelease.toNat⟩ := by
  cases action with
  | relayFrom source | relayWithin => rfl
  | run command => cases command <;> first | rfl | exact absurd rfl hne

theorem Logs.goesOn (h : p.Logs size log) {read : Nat} (demands : Nat)
    (hbatch : q.consumer.batchRelease = p.consumer.batchRelease)
    (hcountdown : q.consumer.batchCountdown = p.consumer.batchCountdown - read)
    (hreleases : q.consumer.releaseCount = p.consumer.releaseCount)
    (hfragments : q.consumer.fragmentsRead = p.consumer.fragmentsRead + read)
    (hlt : log.since + read < size) :
    q.Logs size ⟨log.batches, log.since + read, log.demands + demands⟩ := by
  have hbefore := h.batchCountdown
  refine ⟨hbatch.trans h.batchRelease, ?_, ?_, hreleases.trans h.releaseCount, ?_, h.batches,
    fun hnone => ?_⟩
  · simp only
    omega
  · simp only
    omega
  · rw [hfragments, h.fragmentsRead, Nat.add_assoc]
  · exact h.demands (by simp only at hnone; omega)

theorem Logs.goesOn_of_keeps (h : p.Logs size log) (demands : Nat) (hkeeps : p.KeepsBatch q) :
    q.Logs size ⟨log.batches, log.since + 0, log.demands + demands⟩ := by
  have hlt := h.since_lt
  refine h.goesOn demands hkeeps.batchRelease ?_ hkeeps.releaseCount hkeeps.fragmentsRead (by omega)
  rw [hkeeps.batchCountdown]
  omega

theorem Logs.handsBack (h : p.Logs size log) {read : Nat} {onDemand : Bool}
    (hbatch : q.consumer.batchRelease = p.consumer.batchRelease)
    (hcountdown : q.consumer.batchCountdown = p.consumer.batchRelease)
    (hreleases : q.consumer.releaseCount = p.consumer.releaseCount + 1)
    (hfragments : q.consumer.fragmentsRead = p.consumer.fragmentsRead + read)
    (hmeets : Batch.Meets size ⟨log.since + read, onDemand⟩) :
    q.Logs size ⟨log.batches ++ [⟨log.since + read, onDemand⟩], 0,
      log.demands + onDemand.toNat⟩ := by
  have hrelease := h.batchRelease
  have hlt := h.since_lt
  refine ⟨hbatch.trans hrelease, ?_, ?_, ?_, ?_, fun batch hmem => ?_, fun hnone batch hmem => ?_⟩
  · simp only
    omega
  · simp only
    omega
  · rw [hreleases, h.releaseCount, List.length_append]
    rfl
  · rw [hfragments, h.fragmentsRead, Batch.total_append, Nat.add_assoc]
    rfl
  · rcases List.mem_append.1 hmem with hbefore | hlast
    · exact h.batches batch hbefore
    · rw [List.mem_singleton.1 hlast]
      exact hmeets
  · simp only [Nat.add_eq_zero_iff] at hnone
    rcases List.mem_append.1 hmem with hbefore | hlast
    · exact h.demands hnone.1 batch hbefore
    · rw [List.mem_singleton.1 hlast]
      exact Bool.toNat_eq_zero.1 hnone.2

theorem Logs.act (h : p.Logs size log) (action : Action) :
    (p.act action).2.Logs size (p.logAfter log action) := by
  by_cases hreset : action = .run .reset
  · subst hreset
    have hrelease := h.batchRelease
    have hlt := h.since_lt
    refine ⟨hrelease, ?_, ?_, rfl, rfl, fun batch hmem => (nomatch hmem),
      fun _ batch hmem => (nomatch hmem)⟩
    · show p.consumer.batchRelease = size - 0
      omega
    · show (0 : Int) < size
      omega
  have hcountdown := h.batchCountdown
  have hrelease := h.batchRelease
  have hlt := h.since_lt
  have hdeals := p.deals_act hreset
  rw [p.logAfter_eq log hreset]
  generalize p.act action = result at hdeals ⊢
  cases hdeals with
  | lingers hread hlingers =>
    simp only [hread, if_pos hlingers.releaseCount]
    exact h.goesOn_of_keeps _ hlingers.toKeepsBatch
  | skips hread hkeeps _ _ =>
    simp only [hread, if_pos hkeeps.releaseCount]
    exact h.goesOn_of_keeps _ hkeeps
  | reads hread _ hprepares =>
    have hbatches := hprepares.batches
    simp only [fragmentsIn_of_isRead hread, asksRelease_of_isRead hread]
    rcases hbatches.released with ⟨hmore, hcount, hsame, -⟩ | ⟨hlast, hcount, hnext, -⟩
    · rw [if_pos hsame]
      exact h.goesOn _ hbatches.batchRelease hcount hsame hbatches.fragmentsRead (by omega)
    · rw [if_neg (by omega)]
      exact h.handsBack hbatches.batchRelease hcount hnext hbatches.fragmentsRead
        (Batch.meets_full (by omega))
  | releases haction hread =>
    have hgrows : p.release.consumer.releaseCount ≠ p.consumer.releaseCount := Nat.succ_ne_self _
    have hasks : action.asksRelease = true := congrArg Action.asksRelease haction
    simp only [hread, hasks, if_neg hgrows]
    exact h.handsBack rfl rfl rfl rfl (Batch.meets_onDemand (by omega))

theorem Logged.logs {schema : Schema} {config : Config} (h : Logged schema config p log) :
    p.Logs config.batchRelease log := by
  induction h with
  | built h =>
    have hpositive := Config.batchRelease_of_validate (validate_of_build h)
    rw [eq_fresh_of_build h]
    exact ⟨rfl, (Int.sub_zero _).symm, hpositive, rfl, rfl, fun batch hmem => (nomatch hmem),
      fun _ batch hmem => (nomatch hmem)⟩
  | act _ action ih => exact ih.act action

/-- Without a release on demand the releases are the full batches among what was read. -/
theorem Logs.releaseCount_eq (h : p.Logs size log) (hnone : log.demands = 0) :
    (p.consumer.releaseCount : Int) = p.consumer.fragmentsRead / size := by
  have htotal := Batch.total_of_full h.batches (h.demands hnone)
  have hlt := h.since_lt
  rw [h.releaseCount, h.fragmentsRead, Int.natCast_add, htotal,
    Int.add_comm, Int.add_mul_ediv_left _ _ (by omega), Int.ediv_eq_zero_of_lt (by omega) hlt,
    Int.zero_add]

end Log

/-- Each batch is handed back by the read that completes it, or before that on demand. So without
releases on demand there is one release for each full batch among the fragments that were read. The
released tail moves with a release alone: to the start of the fragment just read, or on demand to
the start of the fragment prepared last. -/
theorem releases_batched {schema : Schema} {config : Config} {p : Pipe} {log : ReleaseLog}
    (h : Logged schema config p log) :
    (∀ batch ∈ log.batches, batch.Meets config.batchRelease) ∧ log.since < config.batchRelease ∧
      p.consumer.releaseCount = log.batches.length ∧
      p.consumer.fragmentsRead = Batch.total log.batches + log.since ∧
      (log.demands = 0 →
        (p.consumer.releaseCount : Int) = p.consumer.fragmentsRead / config.batchRelease) ∧
      ∀ action, action ≠ .run .reset →
        let result := p.act action
        (result.2.consumer.releaseCount = p.consumer.releaseCount ∧
            result.2.ring.tail = p.ring.tail) ∨
          (result.2.consumer.releaseCount = p.consumer.releaseCount + 1 ∧
            action.fragmentsIn result.1 = 1 ∧ result.2.ring.tail = result.2.consumer.tail ∧
            result.2.consumer.tail =
              ⟨p.consumer.next, p.consumer.tail.bytes + p.consumer.fragmentBytes⟩) ∨
          (result.2.consumer.releaseCount = p.consumer.releaseCount + 1 ∧
            action = .run .releaseNow ∧ result.2.ring.tail = p.consumer.tail) := by
  have hlogs := h.logs
  refine ⟨hlogs.batches, hlogs.since_lt, hlogs.releaseCount, hlogs.fragmentsRead,
    hlogs.releaseCount_eq, fun action hne => ?_⟩
  have hdeals := p.deals_act hne
  generalize p.act action = result at hdeals ⊢
  cases hdeals with
  | lingers _ hlingers => exact .inl ⟨hlingers.releaseCount, hlingers.released⟩
  | skips _ hkeeps _ _ => exact .inl ⟨hkeeps.releaseCount, hkeeps.released⟩
  | reads hread _ hprepares =>
    rcases hprepares.batches.released with ⟨-, -, hsame, hkept⟩ | ⟨-, -, hnext, hreleased⟩
    · exact .inl ⟨hsame, hkept⟩
    · exact .inr (.inl ⟨hnext, fragmentsIn_of_isRead hread, hreleased, hprepares.begun.tail⟩)
  | releases haction _ => exact .inr (.inr ⟨rfl, haction, rfl⟩)

/-- With two fragments to a batch, two markers are read and the first is released; a third is read
and everything in front of it is released on demand. -/
theorem releases_batched_book :
    ∃ p, Logged Schema.book ⟨⟨4, 3⟩, 2⟩ p ⟨[⟨2, false⟩, ⟨1, true⟩], 0, 1⟩ ∧
      p.consumer.releaseCount = 2 ∧ p.consumer.fragmentsRead = 3 ∧ p.ring.tail = ⟨4, 0⟩ := by
  have hbuilt : Logged Schema.book ⟨⟨4, 3⟩, 2⟩ (fresh Schema.book ⟨⟨4, 3⟩, 2⟩) .empty :=
    .built (build_eq_fresh (by decide +kernel))
  have hwritten := ((hbuilt.act (.run .publishMarker)).act (.run .publishMarker)).act
    (.run .publishMarker)
  obtain ⟨p, log, hrun, hlog, htail⟩ : ∃ p log, Logged Schema.book ⟨⟨4, 3⟩, 2⟩ p log ∧
      log = ⟨[⟨2, false⟩, ⟨1, true⟩], 0, 1⟩ ∧ p.ring.tail = ⟨4, 0⟩ :=
    ⟨_, _, (((hwritten.act (.run .read)).act (.run .read)).act (.run .read)).act (.run .releaseNow),
      by decide +kernel, by decide +kernel⟩
  subst hlog
  obtain ⟨-, -, hcount, hread, -⟩ := releases_batched hrun
  exact ⟨p, hrun, hcount, hread, htail⟩

end Pipe

end FragmentPipe

import FragmentPipe.Proofs.Positions
import FragmentPipe.Proofs.Reader.Visible

set_option autoImplicit false

namespace FragmentPipe

def Consumer.accounted (c : Consumer) : Nat := c.tail.bytes + c.fragmentBytes

/-- The trailer of a fragment that was read, with the published bytes that were not counted yet. -/
structure TrailerClaim where
  count : Int
  unread : Nat
deriving DecidableEq, Repr

namespace TrailerClaim

def total : List TrailerClaim → Int
  | [] => 0
  | claim :: claims => claim.count + total claims

theorem total_append (claims : List TrailerClaim) (claim : TrailerClaim) :
    total (claims ++ [claim]) = total claims + claim.count := by
  induction claims with
  | nil => exact Int.add_comm _ _
  | cons first claims ih =>
    rw [List.cons_append, total, ih, total, Int.add_assoc]

end TrailerClaim

namespace Pipe

def trailer (p : Pipe) : Int := (p.ring.word (p.consumer.next - 1)).toInt

def claimRead (p : Pipe) (claims : List TrailerClaim) :
    Except Fault Reply × Pipe → List TrailerClaim
  | (.ok (.flag true), q) => claims ++ [⟨q.trailer, p.ring.head.bytes - p.consumer.accounted⟩]
  | _ => claims

def claimsAfter (p : Pipe) (claims : List TrailerClaim) (action : Action) : List TrailerClaim :=
  match action with
  | .run .reset => []
  | .run .read | .run .readMessage | .run .readContinuation => p.claimRead claims (p.act action)
  | _ => claims

inductive Claimed (schema : Schema) (config : Config) : Pipe → List TrailerClaim → Prop where
  | built {p : Pipe} (h : build schema config = .ok p) : Claimed schema config p []
  | act {p : Pipe} {claims : List TrailerClaim} (h : Claimed schema config p claims)
      (action : Action) : Claimed schema config (p.act action).2 (p.claimsAfter claims action)

theorem Claimed.reachable {schema : Schema} {config : Config} {p : Pipe}
    {claims : List TrailerClaim} (h : Claimed schema config p claims) :
    Reachable schema config p := by
  induction h with
  | built h => exact .built h
  | act _ action ih => exact ih.act action

/-- No trailer claims more bytes than were published and unread. -/
def Backed (claims : List TrailerClaim) : Prop := ∀ claim ∈ claims, claim.count ≤ claim.unread

structure Accounts (p : Pipe) (claims : List TrailerClaim) : Prop where
  sum : (p.consumer.accounted : Int) = TrailerClaim.total claims
  bounds : ∀ claim ∈ claims, 0 ≤ claim.count ∧ claim.count ≤ p.ring.capacity.bytes
  backed : Backed claims → p.consumer.accounted ≤ p.ring.head.bytes

section Checks

variable {p q : Pipe} {item : ReadItem} {start bytes : Nat}

theorem trailerAt_eq_ok {r : Ring} {position : Nat} (h : r.trailerAt position = .ok bytes) :
    (r.word position).toInt = bytes ∧ bytes ≤ r.capacity.bytes := by
  unfold Ring.trailerAt at h
  simp only [Bool.and_eq_true, decide_eq_true_eq] at h
  split at h
  · cases h
    omega
  · cases h

theorem trailerAt_eq_error {r : Ring} {position : Nat}
    (h : (r.word position).toInt < 0 ∨ (r.capacity.bytes : Int) < (r.word position).toInt) :
    r.trailerAt position = .error (.badTrailer position (r.word position) r.capacity.bytes
      (r.window position Ring.diagnosticRadius)) := by
  unfold Ring.trailerAt
  simp only [Bool.and_eq_true, decide_eq_true_eq]
  rw [if_neg (by omega)]

theorem trailerAt_of_inspect (h : p.inspect start item = .ok bytes) :
    p.ring.trailerAt (start + item.words p.schema - 1) = .ok bytes := by
  unfold inspect at h
  split at h
  · cases h
  · rename_i found hfound
    rw [hfound]
    congr 1
    split at h
    · exact Except.ok.inj h
    · split at h
      · cases h
      · split at h
        · split at h
          · cases h
          · exact Except.ok.inj h
        · exact Except.ok.inj h

theorem Moved.trailer (hmoved : p.Moved start item bytes q) :
    q.trailer = (p.ring.word (start + item.words p.schema - 1)).toInt := by
  obtain ⟨tail, -, hring⟩ := hmoved.ring
  unfold Pipe.trailer
  rw [hmoved.next, hring]
  rfl

theorem Moved.accounted (hmoved : p.Moved start item bytes q) :
    q.consumer.accounted = p.consumer.accounted + bytes := by
  unfold Consumer.accounted
  rw [hmoved.tail, hmoved.fragmentBytes]

end Checks

section Steps

variable {p q : Pipe} {claims : List TrailerClaim}

theorem Accounts.of_same (h : p.Accounts claims)
    (hsame : q.consumer.accounted = p.consumer.accounted)
    (hcapacity : q.ring.capacity = p.ring.capacity) (hhead : p.ring.head ≤ q.ring.head) :
    q.Accounts claims := by
  refine ⟨by rw [hsame]; exact h.sum, by rw [hcapacity]; exact h.bounds, fun hbacked => ?_⟩
  rw [hsame]
  exact Nat.le_trans (h.backed hbacked) hhead.2

theorem Accounts.moved (h : p.Accounts claims) {item : ReadItem} {start bytes : Nat}
    (hinspect : p.inspect start item = .ok bytes) (hmoved : p.Moved start item bytes q) :
    q.Accounts (claims ++ [⟨q.trailer, p.ring.head.bytes - p.consumer.accounted⟩]) := by
  obtain ⟨hcount, hle⟩ := trailerAt_eq_ok (trailerAt_of_inspect hinspect)
  rw [← hmoved.trailer] at hcount
  obtain ⟨tail, -, hring⟩ := hmoved.ring
  have hcapacity : q.ring.capacity = p.ring.capacity := by
    rw [hring]
    rfl
  have hsum := h.sum
  refine ⟨?_, fun claim hclaim => ?_, fun hbacked => ?_⟩
  · rw [hmoved.accounted, TrailerClaim.total_append, ← hsum, hcount, Int.natCast_add]
  · rw [hcapacity]
    rcases List.mem_append.1 hclaim with hbefore | hlast
    · exact h.bounds claim hbefore
    · rw [List.mem_singleton.1 hlast]
      simp only [hcount]
      omega
  · have hbefore := h.backed fun claim hclaim => hbacked claim (List.mem_append_left _ hclaim)
    have hlast := hbacked _ (List.mem_append_right _ (List.mem_singleton_self _))
    rw [hmoved.accounted, hring]
    simp only [hcount] at hlast ⊢
    omega

theorem Attempt.accounts {expected : ReadItem → Prop} {result : Except Fault Bool × Pipe}
    (h : p.Attempt expected result) (haccounts : p.Accounts claims) :
    result.2.Accounts (p.claimRead claims (replying .flag result)) := by
  cases h with
  | moved _ hprepares hmoved _ => exact haccounts.moved hprepares.inspect hmoved
  | nothing hunmoved _ | corrupt hunmoved _ =>
    obtain ⟨seen, -, rfl⟩ := hunmoved
    exact haccounts.of_same rfl rfl (Mark.le_refl _)

theorem accounted_skip (p : Pipe) (words : Nat) :
    (p.skip words).2.consumer.accounted = p.consumer.accounted := by
  obtain ⟨q, ⟨seen, -, rfl⟩, ⟨-, hskip⟩ | ⟨cause, hskip⟩⟩ := p.skip_cases words <;> rw [hskip]
  · rfl
  · rfl

theorem accounts_act (hs : p.schema.LaidOut) (hfollows : p.consumer.Follows p.schema)
    (hordered : p.Ordered) (hcounts : p.Counts) (h : p.Accounts claims) (action : Action) :
    (p.act action).2.Accounts (p.claimsAfter claims action) := by
  by_cases hreset : action = .run .reset
  · subst hreset
    exact ⟨rfl, fun claim hclaim => (nomatch hclaim), fun _ => Nat.le_refl _⟩
  obtain ⟨-, hcapacity, hadvances⟩ := advances_act hs hfollows hordered hcounts hreset
  cases hproducing : action.isProducing with
  | true =>
    have hsame : p.claimsAfter claims action = claims := by
      cases action with
      | relayFrom source | relayWithin => rfl
      | run command => cases command <;> first | rfl | cases hproducing
    rw [hsame]
    refine h.of_same ?_ hcapacity hadvances.published
    rw [(p.keepsConsumer_of_isProducing hproducing).consumer]
  | false =>
    cases action with
    | relayFrom source | relayWithin => cases hproducing
    | run command =>
      cases command with
      | openAt | write | storeAhead | claim | publish | publishMarker | rebaseWrites | roomFor =>
        cases hproducing
      | reset => exact absurd rfl hreset
      | read => exact (attempt_read hs hfollows).accounts h
      | readMessage => exact (attempt_readMessage hs hfollows).accounts h
      | readContinuation =>
        by_cases hdue : p.isMessageDue = true
        · show p.readContinuation.2.Accounts
            (p.claimRead claims (replying .flag p.readContinuation))
          rw [readContinuation_of_due hdue]
          exact h
        · exact (attempt_readContinuation hs hfollows (by simpa using hdue)).accounts h
      | isVisible target =>
        refine h.of_same ?_ hcapacity hadvances.published
        obtain ⟨seen, -, ⟨-, hvisible⟩ | ⟨-, -, hvisible⟩⟩ := p.isVisible_cases target
        · exact congrArg (fun result => result.2.consumer.accounted) hvisible
        · exact congrArg (fun result => result.2.consumer.accounted) hvisible
      | releaseNow =>
        refine h.of_same ?_ hcapacity hadvances.published
        show p.releaseNow.consumer.accounted = p.consumer.accounted
        unfold releaseNow release
        split <;> rfl
      | rebaseReads => exact h.of_same rfl rfl (Mark.le_refl _)
      | skip words => exact h.of_same (p.accounted_skip words) hcapacity hadvances.published

theorem Claimed.accounts {schema : Schema} {config : Config} (h : Claimed schema config p claims)
    (hs : schema.Accepted) : p.Accounts claims := by
  induction h with
  | built h =>
    rw [eq_fresh_of_build h]
    exact ⟨rfl, fun claim hclaim => (nomatch hclaim), fun _ => Nat.le_refl _⟩
  | act h action ih =>
    have hreachable := h.reachable
    obtain ⟨rfl, hfollows⟩ := hreachable.follows hs.compiled
    exact accounts_act hs.laidOut hfollows (hreachable.ordered hs) (hreachable.counts hs) ih action

end Steps

/-- As long as the counted bytes are published, all positions are in order. -/
theorem Ordered.isOrdered {p : Pipe} (h : p.Ordered)
    (haccounted : p.consumer.accounted ≤ p.ring.head.bytes) : p.isOrdered = true := by
  have htail : p.consumer.tail ≤ p.ring.head :=
    ⟨Nat.le_trans h.prepared h.unread, Nat.le_trans (Nat.le_add_right _ _) haccounted⟩
  simp only [Pipe.isOrdered, Bool.and_eq_true, decide_eq_true_eq]
  exact ⟨⟨⟨h.released, htail⟩, h.published⟩, h.room⟩

def badTrailer (p : Pipe) (start : Nat) (item : ReadItem) : PipeError :=
  let last := start + item.words p.schema - 1
  .badTrailer last (p.ring.word last) p.ring.capacity.bytes
    (p.ring.window last Ring.diagnosticRadius)

section Refusals

variable {p : Pipe} {item : ReadItem}

theorem inspect_of_badTrailer {start : Nat}
    (htrailer : (p.ring.word (start + item.words p.schema - 1)).toInt < 0 ∨
      (p.ring.capacity.bytes : Int) < (p.ring.word (start + item.words p.schema - 1)).toInt) :
    p.inspect start item = .error (.error (p.badTrailer start item)) := by
  unfold inspect
  rw [trailerAt_eq_error htrailer]
  rfl

end Refusals

end Pipe

end FragmentPipe

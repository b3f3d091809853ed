import FragmentPipe.Proofs.Stream.Delivery
import FragmentPipe.Proofs.Stream.Ledger

set_option autoImplicit false

namespace FragmentPipe

namespace Ledger

/-- The ledger of a framed run has come as far as the run, with the fields written that are not
left. -/
structure Tallies (s : Schema) (l : List Piece) (g : Progress) (b : Ledger) : Prop where
  opened : b.opened = g.opened
  published : b.published = g.published
  read : b.read = g.read
  filling : g.left ≠ [] → b.filling = true
  settled : g.published = g.opened → b.filling = false
  bytes : ∀ k m index d f, l[k]? = some (.fragment m index d) → k < g.opened →
    s.fragment? d.cursor = some f → b.bytes k + d.bytesAt (g.leftIn k) = d.bytesAt (s.fieldsOf f)
  written : ∀ k m index d f position, l[k]? = some (.fragment m index d) → k < g.opened →
    s.fragment? d.cursor = some f → position ∈ s.fieldsOf f → position ∉ g.leftIn k →
      b.written k position = true

section

variable {s : Schema} {l : List Piece} {g : Progress} {b : Ledger}

theorem tallies_blank : Tallies s l ⟨0, [], 0, 0⟩ blank := by
  refine ⟨rfl, rfl, rfl, fun hleft => absurd rfl hleft, fun _ => rfl, ?_, ?_⟩
  · exact fun k _ _ _ _ _ hk => absurd hk (Nat.not_lt_zero k)
  · exact fun k _ _ _ _ _ _ hk => absurd hk (Nat.not_lt_zero k)

theorem Tallies.opens (h : b.Tallies s l g) (hpublished : g.published ≤ g.opened)
    (hfilled : g.left = []) (base : Nat) {left : List Nat}
    (hleft : ∀ m index d f, l[g.opened]? = some (.fragment m index d) →
      s.fragment? d.cursor = some f → left = s.fieldsOf f) :
    (b.opens base).Tallies s l { g with opened := g.opened + 1, left } := by
  have hlast : Progress.leftIn { g with opened := g.opened + 1, left } g.opened = left := if_pos rfl
  have hbefore : ∀ k, k < g.opened → g.leftIn k = [] ∧
      Progress.leftIn { g with opened := g.opened + 1, left } k = [] := fun k hk =>
    ⟨Progress.leftIn_of_nil hfilled k, if_neg (by simp only; omega)⟩
  refine ⟨congrArg Nat.succ h.opened, h.published, h.read, fun _ => rfl, fun hall => ?_,
    fun k m index d f hpiece hk hf => ?_, fun k m index d f position hpiece hk hf hfield hnot => ?_⟩
  · simp only at hall
    omega
  · by_cases hnew : k = g.opened
    · subst hnew
      rw [hlast, ← h.opened, bytes_opens_self, Nat.zero_add]
      exact congrArg _ (hleft m index d f hpiece hf)
    · have hlt : k < g.opened := by
        simp only at hk
        omega
      have hbytes := h.bytes k m index d f hpiece hlt hf
      rw [(hbefore k hlt).1] at hbytes
      rw [(hbefore k hlt).2, bytes_opens _ _ (h.opened ▸ hnew)]
      exact hbytes
  · by_cases hnew : k = g.opened
    · subst hnew
      rw [hlast, hleft m index d f hpiece hf] at hnot
      exact absurd hfield hnot
    · have hlt : k < g.opened := by
        simp only at hk
        omega
      rw [written_opens _ _ (h.opened ▸ hnew)]
      exact h.written k m index d f position hpiece hlt hf hfield
        (by rw [(hbefore k hlt).1]; exact List.not_mem_nil)

theorem Tallies.posts (h : b.Tallies s l g) {k position : Nat} {m : MessageData} {index : Nat}
    {d : FragmentData} (hopened : g.opened = k + 1)
    (hpiece : l[k]? = some (.fragment m index d)) (hleft : position ∈ g.left) :
    (b.posts k position (d.value position).byteLength).Tallies s l
      { g with left := g.left.erase position } := by
  have hlast : b.opened = k + 1 := h.opened.trans hopened
  have hnow : g.leftIn k = g.left := if_pos hopened.symm
  have hthen : Progress.leftIn { g with left := g.left.erase position } k = g.left.erase position :=
    if_pos hopened.symm
  have hother : ∀ j, j ≠ k →
      Progress.leftIn { g with left := g.left.erase position } j = g.leftIn j := by
    intro j hj
    have hne : j + 1 ≠ g.opened := by omega
    unfold Progress.leftIn
    rw [if_neg hne, if_neg hne]
  refine ⟨h.opened, h.published, h.read, fun _ => h.filling (List.ne_nil_of_mem hleft), h.settled,
    fun j m' index' d' f hj hlt hf => ?_, fun j m' index' d' f other hj hlt hf hfield hnot => ?_⟩
  · have hbytes := h.bytes j m' index' d' f hj hlt hf
    by_cases hsame : j = k
    · subst hsame
      rw [hpiece] at hj
      cases hj
      have herase := d.bytesAt_erase hleft
      rw [hnow] at hbytes
      rw [hthen, bytes_posts_opened _ _ _ hlast]
      omega
    · rw [hother j hsame]
      refine Eq.trans (congrArg (· + _) ?_) hbytes
      exact if_neg (by omega)
  · by_cases hsame : j = k ∧ other = position
    · obtain ⟨rfl, rfl⟩ := hsame
      rw [written_posts_self]
      exact decide_eq_true (.inr hlast)
    · rw [written_posts_of_ne _ (by omega)]
      refine h.written j m' index' d' f other hj hlt hf hfield fun hstill => hnot ?_
      by_cases hj : j = k
      · subst hj
        rw [hnow] at hstill
        rw [hthen]
        exact (List.mem_erase_of_ne fun heq => hsame ⟨rfl, heq⟩).2 hstill
      · rw [hother j hj]
        exact hstill

theorem Tallies.closes (h : b.Tallies s l g) (hfilled : g.left = []) : b.closes.Tallies s l g :=
  ⟨h.opened, h.published, h.read, fun hleft => absurd hfilled hleft, fun _ => rfl, h.bytes,
    h.written⟩

theorem Tallies.publishes (h : b.Tallies s l g) (hfilled : g.left = []) :
    b.publishes.Tallies s l { g with published := g.opened } :=
  ⟨h.opened, h.opened, h.read, fun hleft => absurd hfilled hleft, fun _ => rfl, h.bytes, h.written⟩

theorem Tallies.reads (h : b.Tallies s l g) :
    { b with read := b.read + 1 }.Tallies s l { g with read := g.read + 1 } :=
  ⟨h.opened, h.published, congrArg Nat.succ h.read, h.filling, h.settled, h.bytes, h.written⟩

end

end Ledger

namespace Pipe

variable {schema : Schema} {config : Config} {items : List StreamItem} {p q : Pipe} {g : Progress}
  {b : Ledger}

/-- A call that answers neither that it was done nor with a positive flag enters nothing. -/
theorem Books.of_refused {α : Type} {s : Schema} {l : List Piece} {reply : α → Reply}
    {answer : Except Fault α} (action : Action) (hne : action ≠ .run .publishMarker)
    (hact : p.act action = replying reply (answer, q))
    (h : ∀ found, answer = .ok found → reply found = .flag false) : p.Books s l b q b := by
  have hrefuses : p.Refuses action := by
    unfold Refuses
    rw [hact]
    cases answer with
    | error fault => exact .inr ⟨fault, rfl⟩
    | ok found => exact .inl (congrArg _ (h found rfl))
  have hstep : p.Books s l b (p.act action).2 b := .refuses action hne hrefuses
  rw [hact] at hstep
  exact hstep

theorem flag_of_ne {answer : Except Fault Bool} (h : answer ≠ .ok true) (found : Bool)
    (hanswer : answer = .ok found) : Reply.flag found = .flag false := by
  cases found with
  | false => rfl
  | true => exact absurd hanswer h

/-- The sequence lengths of a framed run are told once all fields are written. -/
theorem Lays.tellsLengths {s : Schema} (hs : s.Measured) (hfits : StreamFits s items)
    (h : p.Lays s (piecesOf items) (fun _ => 0) g .none) (htallies : b.Tallies s (piecesOf items) g)
    (hfilled : g.left = []) : p.TellsLengths s (piecesOf items) b := by
  intro k piece hpiece hpublished hopened
  rw [htallies.published] at hpublished
  rw [htallies.opened] at hopened
  cases piece with
  | marker => trivial
  | fragment m index d =>
    intro f hf
    obtain ⟨hitem, hmember⟩ := mem_of_piecesOf hpiece
    have hheld := h.holds k _ hpiece hopened
      (Nat.le_trans (Raw.none.first_le g.read) (Nat.le_trans h.read_le hpublished)) f hf
    rw [Progress.leftIn_of_nil hfilled, placeAt_none] at hheld
    exact hheld.lengthOf hs hf ((hfits m hitem).fragments d (List.mem_of_getElem? hmember))

/-- Every framed run keeps a ledger that tells what was written. -/
theorem Framed.booked (h : Framed schema config items p g) (hs : schema.Accepted)
    (hfits : StreamFits schema items) :
    ∃ b, Booked schema config items p b ∧ b.Tallies schema (piecesOf items) g := by
  have hmeasured := h.reachable.measured hs
  induction h with
  | built h => exact ⟨_, .built h, Ledger.tallies_blank⟩
  | @opens p q g m index d f h bytes hnext hfilled hf hopen ih =>
    obtain ⟨b, hbooked, htallies⟩ := ih
    have hlays := (h.tracks hs hfits).1
    refine ⟨_, hbooked.step (.opens bytes (htallies.opened ▸ hnext) hopen),
      htallies.opens hlays.published_le hfilled _ fun m' index' d' f' hnext' hf' => ?_⟩
    rw [hnext] at hnext'
    cases hnext'
    rw [hf] at hf'
    cases hf'
    rfl
  | @refusesToOpen p q g result h cursor bytes hopen hrefused ih =>
    obtain ⟨b, hbooked, htallies⟩ := ih
    exact ⟨b, hbooked.step (.of_refused (.run (.openAt cursor bytes)) nofun
      (congrArg (replying .flag) hopen) (flag_of_ne hrefused)), htallies⟩
  | @writes p q g k m index d loc h position hopened hpiece hleft hloc hwrite ih =>
    obtain ⟨b, hbooked, htallies⟩ := ih
    obtain ⟨hfield, hstart, hunpublished⟩ :=
      (h.spaced.tracks hs hfits).1.left_filling hmeasured hfits hopened hpiece hleft hloc
    rw [placeAt_none] at hstart
    have hlt : k < b.opened := by
      rw [htallies.opened, hopened]
      exact Nat.lt_succ_self k
    exact ⟨_, hbooked.step (.writes position hpiece (htallies.published ▸ hunpublished) hlt hfield
      hstart (fun _ => htallies.filling (List.ne_nil_of_mem hleft)) hwrite),
      htallies.posts hopened hpiece hleft⟩
  | @refusesToWrite p q g k m index d loc fault h position hopened hpiece hleft hloc hwrite ih =>
    obtain ⟨b, hbooked, htallies⟩ := ih
    exact ⟨b, hbooked.step (.of_refused (.run (.write loc (d.value position))) nofun
      (congrArg (replying fun _ => .done) hwrite) nofun), htallies⟩
  | publishes h hfilled ih =>
    obtain ⟨b, hbooked, htallies⟩ := ih
    have htells := (h.tracks hs hfits).1.tellsLengths hmeasured hfits htallies hfilled
    exact ⟨_, hbooked.step (.publishes htells), htallies.publishes hfilled⟩
  | @marks p q g h hnext hfilled hmarker ih =>
    obtain ⟨b, hbooked, htallies⟩ := ih
    have hlays := (h.tracks hs hfits).1
    have htells := hlays.tellsLengths hmeasured hfits htallies hfilled
    have hopens : (b.opens q.producer.byteBase).Tallies schema (piecesOf items)
        { g with opened := g.opened + 1 } :=
      htallies.opens hlays.published_le hfilled _ fun m index d f hpiece _ => by
        rw [hnext] at hpiece
        cases hpiece
    exact ⟨_, hbooked.step (.marks htells (htallies.opened ▸ hnext) hmarker),
      hopens.publishes hfilled⟩
  | refusesToMark h hfilled hmarker ih =>
    obtain ⟨b, hbooked, htallies⟩ := ih
    exact ⟨_, hbooked.step (.refusesToMark hmarker), htallies.closes hfilled⟩
  | reads h hread ih =>
    obtain ⟨b, hbooked, htallies⟩ := ih
    exact ⟨_, hbooked.step (.reads hread), htallies.reads⟩
  | @refusesToRead p q g result h hread hrefused ih =>
    obtain ⟨b, hbooked, htallies⟩ := ih
    exact ⟨b, hbooked.step (.of_refused (.run .read) nofun (congrArg (replying .flag) hread)
      (flag_of_ne hrefused)), htallies⟩
  | releases h ih =>
    obtain ⟨b, hbooked, htallies⟩ := ih
    exact ⟨b, hbooked.step .releases, htallies⟩

end Pipe

end FragmentPipe

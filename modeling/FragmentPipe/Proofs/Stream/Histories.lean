import FragmentPipe.Command
import FragmentPipe.Proofs.Stream.Framed

set_option autoImplicit false

namespace FragmentPipe

namespace Pipe

/-- How a command and its answer take a framed run on. -/
inductive FramedStep (schema : Schema) (items : List StreamItem) (g : Progress) :
    Command → Except Fault Reply → Progress → Prop where
  | opens {m : MessageData} {index : Nat} {d : FragmentData} {f : Fragment} (bytes : Nat)
      (hnext : (piecesOf items)[g.opened]? = some (.fragment m index d)) (hfilled : g.left = [])
      (hf : schema.fragment? d.cursor = some f) :
      FramedStep schema items g (.openAt d.cursor bytes) (.ok (.flag true))
        { g with opened := g.opened + 1, left := schema.fieldsOf f }
  | refusesToOpen {reply : Except Fault Reply} (cursor : Int) (bytes : Nat)
      (hrefused : reply ≠ .ok (.flag true)) :
      FramedStep schema items g (.openAt cursor bytes) reply g
  | writes {k : Nat} {m : MessageData} {index : Nat} {d : FragmentData} {loc : Locator}
      (position : Nat) (hopened : g.opened = k + 1)
      (hpiece : (piecesOf items)[k]? = some (.fragment m index d)) (hleft : position ∈ g.left)
      (hloc : schema.locator? position = some loc) :
      FramedStep schema items g (.write loc (d.value position)) (.ok .done)
        { g with left := g.left.erase position }
  | refusesToWrite {k : Nat} {m : MessageData} {index : Nat} {d : FragmentData} {loc : Locator}
      {fault : Fault} (position : Nat) (hopened : g.opened = k + 1)
      (hpiece : (piecesOf items)[k]? = some (.fragment m index d)) (hleft : position ∈ g.left)
      (hloc : schema.locator? position = some loc) :
      FramedStep schema items g (.write loc (d.value position)) (.error fault) g
  | publishes (hfilled : g.left = []) :
      FramedStep schema items g .publish (.ok .done) { g with published := g.opened }
  | marks (hnext : (piecesOf items)[g.opened]? = some .marker) (hfilled : g.left = []) :
      FramedStep schema items g .publishMarker (.ok (.flag true))
        { g with opened := g.opened + 1, published := g.opened + 1 }
  | refusesToMark (hfilled : g.left = []) :
      FramedStep schema items g .publishMarker (.ok (.flag false)) g
  | reads : FramedStep schema items g .read (.ok (.flag true)) { g with read := g.read + 1 }
  | refusesToRead {reply : Except Fault Reply} (hrefused : reply ≠ .ok (.flag true)) :
      FramedStep schema items g .read reply g
  | releases : FramedStep schema items g .releaseNow (.ok .done) g

inductive FramedHistory (schema : Schema) (items : List StreamItem) :
    Pipe → Progress → List Command → Progress → Prop where
  | done (p : Pipe) (g : Progress) : FramedHistory schema items p g [] g
  | step {p : Pipe} {g g' g'' : Progress} {command : Command} {rest : List Command}
      (hstep : FramedStep schema items g command (p.run command).1 g')
      (hrest : FramedHistory schema items (p.run command).2 g' rest g'') :
      FramedHistory schema items p g (command :: rest) g''

def FramedCommands (schema : Schema) (config : Config) (items : List StreamItem)
    (commands : List Command) (g : Progress) : Prop :=
  FramedHistory schema items (fresh schema config) ⟨0, [], 0, 0⟩ commands g

section Replies

theorem eq_ok_of_replying {α : Type} {reply : α → Reply} (hinj : ∀ a b, reply a = reply b → a = b)
    {result : Except Fault α × Pipe} {answer : α}
    (h : (replying reply result).1 = .ok (reply answer)) : result = (.ok answer, result.2) := by
  obtain ⟨found, p⟩ := result
  cases found with
  | error fault => cases h
  | ok found =>
    have hsame : reply found = reply answer := Except.ok.inj h
    rw [hinj found answer hsame]

theorem eq_error_of_replying {α : Type} {reply : α → Reply} {result : Except Fault α × Pipe}
    {fault : Fault} (h : (replying reply result).1 = .error fault) :
    result = (.error fault, result.2) := by
  obtain ⟨found, p⟩ := result
  cases found with
  | error cause =>
    cases h
    rfl
  | ok found => cases h

theorem flag_inj (a b : Bool) (h : Reply.flag a = Reply.flag b) : a = b := by
  cases h
  rfl

theorem done_inj (a b : Unit) (_ : Reply.done = Reply.done) : a = b := rfl

end Replies

section Framing

variable {schema : Schema} {config : Config} {items : List StreamItem} {p : Pipe} {g g' : Progress}

theorem Framed.step (h : Framed schema config items p g) {command : Command}
    (hstep : FramedStep schema items g command (p.run command).1 g') :
    Framed schema config items (p.run command).2 g' := by
  generalize hreply : (p.run command).1 = reply at hstep
  cases hstep with
  | opens bytes hnext hfilled hf =>
    exact h.opens bytes hnext hfilled hf (eq_ok_of_replying flag_inj hreply)
  | refusesToOpen cursor bytes hrefused =>
    refine h.refusesToOpen cursor bytes rfl fun hopen => hrefused ?_
    rw [← hreply]
    exact congrArg (Except.map Reply.flag) hopen
  | writes position hopened hpiece hleft hloc =>
    exact h.writes position hopened hpiece hleft hloc (eq_ok_of_replying done_inj hreply)
  | refusesToWrite position hopened hpiece hleft hloc =>
    exact h.refusesToWrite position hopened hpiece hleft hloc (eq_error_of_replying hreply)
  | publishes hfilled => exact h.publishes hfilled
  | marks hnext hfilled =>
    exact h.marks hnext hfilled (Prod.ext (flag_inj _ _ (Except.ok.inj hreply)) rfl)
  | refusesToMark hfilled =>
    exact h.refusesToMark hfilled (Prod.ext (flag_inj _ _ (Except.ok.inj hreply)) rfl)
  | reads => exact h.reads (eq_ok_of_replying flag_inj hreply)
  | refusesToRead hrefused =>
    refine h.refusesToRead rfl fun hread => hrefused ?_
    rw [← hreply]
    exact congrArg (Except.map Reply.flag) hread
  | releases => exact h.releases

theorem Framed.history (h : Framed schema config items p g) {commands : List Command}
    (hhistory : FramedHistory schema items p g commands g') :
    Framed schema config items (p.runAll commands) g' := by
  induction hhistory with
  | done => exact h
  | step hstep _ ih => exact ih (h.step hstep)

theorem FramedHistory.concat {commands : List Command} {command : Command} {g'' : Progress}
    (h : FramedHistory schema items p g commands g')
    (hstep : FramedStep schema items g' command ((p.runAll commands).run command).1 g'') :
    FramedHistory schema items p g (commands ++ [command]) g'' := by
  induction h with
  | done => exact .step hstep (.done _ _)
  | step hfirst _ ih => exact .step hfirst (ih hstep)

theorem runAll_concat (p : Pipe) (commands : List Command) (command : Command) :
    p.runAll (commands ++ [command]) = ((p.runAll commands).run command).2 := by
  simp [runAll]

def HasCommands (schema : Schema) (config : Config) (items : List StreamItem) (p : Pipe)
    (g : Progress) : Prop :=
  build schema config = .ok (fresh schema config) ∧ ∃ commands,
    FramedCommands schema config items commands g ∧ p = (fresh schema config).runAll commands

theorem HasCommands.step {q : Pipe} (h : HasCommands schema config items p g) (command : Command)
    (hstep : FramedStep schema items g command (p.run command).1 g')
    (hq : (p.run command).2 = q) : HasCommands schema config items q g' := by
  obtain ⟨hbuilt, commands, hcommands, rfl⟩ := h
  subst hq
  exact ⟨hbuilt, _, hcommands.concat hstep, (runAll_concat _ _ _).symm⟩

theorem ne_of_replying {result : Except Fault Bool × Pipe} {answer : Except Fault Bool}
    (h : result.1 = answer) (hrefused : answer ≠ .ok true) :
    (replying .flag result).1 ≠ .ok (.flag true) := by
  intro hok
  rw [eq_ok_of_replying flag_inj hok] at h
  exact hrefused h.symm

/-- The framed runs are what the commands of framed histories make of fresh pipes. -/
theorem framed_iff : Framed schema config items p g ↔ HasCommands schema config items p g := by
  constructor
  · -- Each rule of a framed run is one more command, and its answer picks the rule again.
    intro h
    have hreply : ∀ {α : Type} {reply : α → Reply} {result answer : Except Fault α × Pipe},
        result = answer → (replying reply result).1 = answer.1.map reply :=
      fun heq => heq ▸ rfl
    induction h with
    | built h =>
      obtain rfl := eq_fresh_of_build h
      exact ⟨h, [], .done _ _, rfl⟩
    | opens _ bytes hnext hfilled hf hopen ih =>
      refine ih.step (.openAt _ bytes) ?_ (congrArg Prod.snd hopen)
      rw [run, hreply hopen]
      exact .opens bytes hnext hfilled hf
    | refusesToOpen _ cursor bytes hopen hrefused ih =>
      exact ih.step (.openAt cursor bytes)
        (.refusesToOpen cursor bytes (ne_of_replying (congrArg Prod.fst hopen) hrefused))
        (congrArg Prod.snd hopen)
    | writes _ position hopened hpiece hleft hloc hwrite ih =>
      refine ih.step (.write _ _) ?_ (congrArg Prod.snd hwrite)
      rw [run, hreply hwrite]
      exact .writes position hopened hpiece hleft hloc
    | refusesToWrite _ position hopened hpiece hleft hloc hwrite ih =>
      refine ih.step (.write _ _) ?_ (congrArg Prod.snd hwrite)
      rw [run, hreply hwrite]
      exact .refusesToWrite position hopened hpiece hleft hloc
    | publishes _ hfilled ih => exact ih.step .publish (.publishes hfilled) rfl
    | marks _ hnext hfilled hmarker ih =>
      refine ih.step .publishMarker ?_ (congrArg Prod.snd hmarker)
      rw [run, hmarker]
      exact .marks hnext hfilled
    | refusesToMark _ hfilled hmarker ih =>
      refine ih.step .publishMarker ?_ (congrArg Prod.snd hmarker)
      rw [run, hmarker]
      exact .refusesToMark hfilled
    | reads _ hread ih =>
      refine ih.step .read ?_ (congrArg Prod.snd hread)
      rw [run, hreply hread]
      exact .reads
    | refusesToRead _ hread hrefused ih =>
      exact ih.step .read (.refusesToRead (ne_of_replying (congrArg Prod.fst hread) hrefused))
        (congrArg Prod.snd hread)
    | releases _ ih => exact ih.step .releaseNow .releases rfl
  · rintro ⟨hbuilt, commands, hcommands, rfl⟩
    exact (Framed.built hbuilt).history hcommands

end Framing

end Pipe

end FragmentPipe

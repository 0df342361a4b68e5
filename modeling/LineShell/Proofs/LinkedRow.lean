import Mathlib.Data.List.Chain
import LineShell.Stage

/-!
Linking a row of fresh stages. It succeeds exactly when each stage takes what
the one before it gives, and the result is then fixed: every stage but the
first has an input, and every stage but the last an output. Where it fails, the
first two neighbours that do not fit are to blame.
-/

namespace LineShell

namespace Verb

/-- Writes lines and reads none. -/
def isSource (verb : Verb) : Bool :=
  verb.producesOutput && !verb.acceptsInput

/-- Reads lines and writes lines. -/
def isFilter (verb : Verb) : Bool :=
  verb.acceptsInput && verb.producesOutput

/-- Reads lines and writes none. -/
def isSink (verb : Verb) : Bool :=
  verb.acceptsInput && !verb.producesOutput

theorem isSolitary_iff (verb : Verb) :
    verb.isSolitary = true ↔ verb.acceptsInput = false ∧ verb.producesOutput = false := by
  cases verb <;> simp [isSolitary, acceptsInput, producesOutput]

end Verb

namespace Stage

/-- A stage with no neighbours yet. -/
def alone (command : Text × Verb) : Stage :=
  { command := command.1, verb := command.2 }

/-- Stages in a row, each linked to the next. Whether the first has an input is
said apart. -/
def rowFrom (hasInput : Bool) : List (Text × Verb) → List Stage
  | [] => []
  | command :: rest =>
    { command := command.1, verb := command.2, hasInput, hasOutput := !rest.isEmpty } ::
      rowFrom true rest

/-- Whether one command may stand directly before another. -/
def Fits (first second : Text × Verb) : Prop :=
  second.2.acceptsInput = true ∧ first.2.producesOutput = true

private theorem chainOnto_eq_ok_iff (command : Text × Verb) (hasInput : Bool)
    (rest : List (Text × Verb)) (linked : List Stage) :
    chainOnto { alone command with hasInput } (rest.map alone) = .ok linked ↔
      (command :: rest).IsChain Fits ∧ linked = rowFrom hasInput (command :: rest) := by
  induction rest generalizing command hasInput linked with
  | nil =>
      simp only [List.map_nil, chainOnto, Except.ok.injEq, List.IsChain.singleton, true_and]
      exact eq_comm
  | cons next more ih =>
      by_cases haccepts : next.2.acceptsInput = true
      · by_cases hproduces : command.2.producesOutput = true
        · have hlink : link { alone command with hasInput } (alone next) =
              .ok ({ alone command with hasInput, hasOutput := true },
                { alone next with hasInput := true }) := by
            simp [link, alone, haccepts, hproduces]
          have hfits : Fits command next := ⟨haccepts, hproduces⟩
          simp only [List.map_cons, chainOnto, hlink, List.isChain_cons_cons, hfits, true_and]
          cases hmore : chainOnto { alone next with hasInput := true } (more.map alone) with
          | error error =>
              have hno : ¬ (next :: more).IsChain Fits := by
                intro hchain
                have := (ih next true _).mpr ⟨hchain, rfl⟩
                rw [hmore] at this
                cases this
              simp [Except.map, hno]
          | ok tail =>
              obtain ⟨hchain, rfl⟩ := (ih next true tail).mp hmore
              simp only [Except.map, Except.ok.injEq, hchain, true_and]
              exact eq_comm
        · have hlink : link { alone command with hasInput } (alone next) =
              .error (.cannotHaveOutput command.1) := by
            simp [link, alone, haccepts, hproduces]
          simp [chainOnto, hlink, Fits, hproduces]
      · have hlink : link { alone command with hasInput } (alone next) =
            .error (.cannotHaveInput next.1) := by
          simp [link, alone, haccepts]
        simp [chainOnto, hlink, Fits, haccepts]

theorem chain_eq_ok_iff (commands : List (Text × Verb)) (linked : List Stage) :
    chain (commands.map alone) = .ok linked ↔
      commands.IsChain Fits ∧ linked = rowFrom false commands := by
  cases commands with
  | nil =>
      simp only [List.map_nil, chain, Except.ok.injEq, List.IsChain.nil, true_and]
      exact eq_comm
  | cons command rest => exact chainOnto_eq_ok_iff command false rest linked

/-- Why one command may not stand directly before another. What the second refuses is
said before what the first refuses. -/
inductive Unfit (first second : Text × Verb) : ShellError → Prop
  | input (refuses : second.2.acceptsInput = false) :
      Unfit first second (.cannotHaveInput second.1)
  | output (accepts : second.2.acceptsInput = true)
      (refuses : first.2.producesOutput = false) :
      Unfit first second (.cannotHaveOutput first.1)

/-- The first two neighbours of a row that do not fit, and why. -/
def FirstUnfit (row : List (Text × Verb)) (error : ShellError) : Prop :=
  ∃ front first second back, row = front ++ first :: second :: back ∧
    (front ++ [first]).IsChain Fits ∧ Unfit first second error

private theorem Unfit.not_fits {first second : Text × Verb} {error : ShellError}
    (h : Unfit first second error) : ¬ Fits first second := by
  rintro ⟨haccepts, hproduces⟩
  cases h with
  | input hrefuses =>
      rw [hrefuses] at haccepts
      cases haccepts
  | output _ hrefuses =>
      rw [hrefuses] at hproduces
      cases hproduces

private theorem not_firstUnfit_singleton (command : Text × Verb) (error : ShellError) :
    ¬ FirstUnfit [command] error := by
  rintro ⟨front, first, second, back, hrow, -⟩
  have hlength := congrArg List.length hrow
  simp only [List.length_append, List.length_cons, List.length_nil] at hlength
  omega

/-- Either the first two of a row do not fit, or it is two later ones. -/
theorem firstUnfit_cons_cons {command next : Text × Verb} {rest : List (Text × Verb)}
    {error : ShellError} :
    FirstUnfit (command :: next :: rest) error ↔
      Unfit command next error ∨ Fits command next ∧ FirstUnfit (next :: rest) error := by
  have hhead {front : List (Text × Verb)} {first second : Text × Verb}
      {back : List (Text × Verb)} (hrow : next :: rest = front ++ first :: second :: back) :
      (front ++ [first]).head? = some next := by
    have := congrArg List.head? hrow
    simpa [List.head?_append] using this.symm
  constructor
  · rintro ⟨front, first, second, back, hrow, hchain, hunfit⟩
    cases front with
    | nil =>
        simp only [List.nil_append, List.cons.injEq] at hrow
        obtain ⟨rfl, rfl, -⟩ := hrow
        exact .inl hunfit
    | cons _ front =>
        simp only [List.cons_append, List.cons.injEq] at hrow hchain
        obtain ⟨rfl, hrow⟩ := hrow
        obtain ⟨hfits, hchain⟩ := List.isChain_cons.mp hchain
        exact .inr ⟨hfits next (hhead hrow), front, first, second, back, hrow, hchain, hunfit⟩
  · rintro (hunfit | ⟨hfits, front, first, second, back, hrow, hchain, hunfit⟩)
    · exact ⟨[], command, next, rest, rfl, .singleton _, hunfit⟩
    · refine ⟨command :: front, first, second, back, by rw [hrow]; rfl, ?_, hunfit⟩
      refine List.isChain_cons.mpr ⟨fun other hother => ?_, hchain⟩
      exact Option.some.inj ((hhead hrow).symm.trans hother) ▸ hfits

private theorem chainOnto_eq_error_iff (command : Text × Verb) (hasInput : Bool)
    (rest : List (Text × Verb)) (error : ShellError) :
    chainOnto { alone command with hasInput } (rest.map alone) = .error error ↔
      FirstUnfit (command :: rest) error := by
  induction rest generalizing command hasInput with
  | nil => simp [chainOnto, not_firstUnfit_singleton]
  | cons next more ih =>
      rw [firstUnfit_cons_cons]
      by_cases haccepts : next.2.acceptsInput = true
      · by_cases hproduces : command.2.producesOutput = true
        · have hlink : link { alone command with hasInput } (alone next) =
              .ok ({ alone command with hasInput, hasOutput := true },
                { alone next with hasInput := true }) := by
            simp [link, alone, haccepts, hproduces]
          have hfits : Fits command next := ⟨haccepts, hproduces⟩
          have hfit : ¬ Unfit command next error := fun h => h.not_fits hfits
          rw [← ih next true]
          simp only [List.map_cons, chainOnto, hlink, hfits, hfit, true_and, false_or]
          cases chainOnto { alone next with hasInput := true } (more.map alone) <;>
            simp [Except.map]
        · have hrefuses : command.2.producesOutput = false := by simpa using hproduces
          have hlink : link { alone command with hasInput } (alone next) =
              .error (.cannotHaveOutput command.1) := by
            simp [link, alone, haccepts, hproduces]
          simp only [List.map_cons, chainOnto, hlink, Except.error.injEq, Fits, hrefuses]
          constructor
          · rintro rfl
            exact .inl (.output haccepts hrefuses)
          · rintro (hunfit | ⟨⟨-, hfits⟩, -⟩)
            · cases hunfit with
              | input hinput => simp [haccepts] at hinput
              | output => rfl
            · cases hfits
      · have hrefuses : next.2.acceptsInput = false := by simpa using haccepts
        have hlink : link { alone command with hasInput } (alone next) =
            .error (.cannotHaveInput next.1) := by
          simp [link, alone, haccepts]
        simp only [List.map_cons, chainOnto, hlink, Except.error.injEq, Fits, hrefuses]
        constructor
        · rintro rfl
          exact .inl (.input hrefuses)
        · rintro (hunfit | ⟨⟨hfits, -⟩, -⟩)
          · cases hunfit with
            | input => rfl
            | output hinput => simp [hrefuses] at hinput
          · cases hfits

theorem chain_eq_error_iff (commands : List (Text × Verb)) (error : ShellError) :
    chain (commands.map alone) = .error error ↔ FirstUnfit commands error := by
  cases commands with
  | nil =>
      simp only [List.map_nil, chain, reduceCtorEq, false_iff]
      rintro ⟨front, first, second, back, hrow, -⟩
      exact absurd hrow (by simp)
  | cons command rest => exact chainOnto_eq_error_iff command false rest error

theorem map_verb_rowFrom (hasInput : Bool) (commands : List (Text × Verb)) :
    (rowFrom hasInput commands).map Stage.verb = commands.map Prod.snd := by
  induction commands generalizing hasInput with
  | nil => rfl
  | cons command rest ih => simp [rowFrom, ih]

end Stage

end LineShell

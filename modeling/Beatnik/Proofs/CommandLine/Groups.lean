import Beatnik.CommandLine.Perform
import Beatnik.Proofs.Tables.Parts

/-!
# Groups of arguments

Arguments belong together in groups (`Group`): an option with its value, a list of words to score, or a
script alone.  A command line is a list of groups, with no script directly after words to score, as it
would be one more of them (`Phrase`).  What a phrase asks for is said by the last group of each kind
(`requestOf`), and reading its arguments gives just that, unless there is a second script:

    r.read (argumentsOf gs ++ rest) = (gs.foldl Request.take r).read rest          (read_arguments)
    gs.foldl Request.take {} = requestOf gs                                            (foldl_take)
-/

namespace Beatnik.CommandLine

/-! ## Groups -/

/-- A number that can be given for a stack depth: decimal digits, perhaps after a plus sign. -/
def IsDepth (numeral : String) (depth : Nat) : Prop :=
  depth ≤ maxLimit ∧
    ∃ ds, (numeral.toList = ds ∨ numeral.toList = '+' :: ds) ∧ Text.Decimal ds depth

instance (numeral : String) (depth : Nat) : Decidable (IsDepth numeral depth) :=
  decidable_of_iff _ Text.natural?_eq_some

/-- Arguments that belong together. -/
inductive Group where
  | scores (file : String)
  | actions (file : String)
  | maxDepth (numeral : String) (depth : Nat)
  | score (words : List String)
  | list
  | script (path : String)

inductive Kind where
  | scores
  | actions
  | maxDepth
  | score
  | list
  | script
deriving DecidableEq

namespace Group

def kind : Group → Kind
  | scores _ => .scores
  | actions _ => .actions
  | maxDepth _ _ => .maxDepth
  | score _ => .score
  | list => .list
  | script _ => .script

def arguments : Group → List String
  | scores file => ["--scores", file]
  | actions file => ["--actions", file]
  | maxDepth numeral _ => ["--max-depth", numeral]
  | score words => "--score" :: words
  | list => ["--words"]
  | script path => [path]

/-- A depth is a number, words to score are no options, and a script is no option and asks for no help.
A file may be anything. -/
def Valid : Group → Prop
  | scores _ | actions _ | list => True
  | maxDepth numeral depth => IsDepth numeral depth
  | score words => ∀ w ∈ words, isOption w = false
  | script path => isOption path = false ∧ path ≠ "-h"

instance : DecidablePred Valid
  | scores _ | actions _ | list => isTrue trivial
  | maxDepth numeral depth => inferInstanceAs (Decidable (IsDepth numeral depth))
  | score words => inferInstanceAs (Decidable (∀ w ∈ words, isOption w = false))
  | script path => inferInstanceAs (Decidable (isOption path = false ∧ path ≠ "-h"))

/-- The file of a table. -/
def file? : Group → Option String
  | scores file | actions file => some file
  | _ => none

def depth? : Group → Option Nat
  | maxDepth _ depth => some depth
  | _ => none

def words? : Group → Option (List String)
  | score words => some words
  | _ => none

def script? : Group → Option String
  | script path => some path
  | _ => none

/-- What a group asks to be done. -/
def job? : Group → Option Job
  | score words => some (.score words)
  | list => some .list
  | script path => some (.run path)
  | _ => none

end Group

/-! ## Lists of groups -/

def argumentsOf (gs : List Group) : List String := gs.flatMap Group.arguments

theorem argumentsOf_cons (g : Group) (gs : List Group) :
    argumentsOf (g :: gs) = g.arguments ++ argumentsOf gs := List.flatMap_cons

def scriptsOf (gs : List Group) : List String := gs.filterMap Group.script?

/-- The last group of a kind. -/
def lastOf (kind : Kind) (gs : List Group) : Option Group := (gs.filter (·.kind = kind)).getLast?

/-- What some groups ask for: of each kind of group the last one counts. -/
def requestOf (gs : List Group) : Request where
  options := {
    scores := (lastOf .scores gs).bind Group.file?
    actions := (lastOf .actions gs).bind Group.file?
    maxDepth := (lastOf .maxDepth gs).bind Group.depth? }
  words := (lastOf .score gs).bind Group.words?
  list := (lastOf .list gs).isSome
  script := (lastOf .script gs).bind Group.script?

/-- A command line made of groups. -/
structure Phrase where
  groups : List Group
  valid : ∀ g ∈ groups, g.Valid
  /-- a script directly after words to score would be one of them -/
  apart : groups.IsChain fun g h => ¬ (g.kind = .score ∧ h.kind = .script)

namespace Phrase

def arguments (p : Phrase) : List String := argumentsOf p.groups

def scripts (p : Phrase) : List String := scriptsOf p.groups

/-- The groups of a kind, in order. -/
def ofKind (p : Phrase) (kind : Kind) : List Group := p.groups.filter (·.kind = kind)

/-- The last group of a kind. -/
def last (p : Phrase) (kind : Kind) : Option Group := lastOf kind p.groups

/-- What is to be done: one job for each of the three kinds of groups that ask for one. -/
def jobs (p : Phrase) : List Job :=
  [Kind.score, .list, .script].filterMap fun kind => (p.last kind).bind Group.job?

/-- A phrase with one group more at its start. -/
def cons (g : Group) (p : Phrase) (hg : g.Valid)
    (hfollow : ∀ h ∈ p.groups.head?, ¬ (g.kind = .score ∧ h.kind = .script)) : Phrase where
  groups := g :: p.groups
  valid := List.forall_mem_cons.2 ⟨hg, p.valid⟩
  apart := List.isChain_cons.2 ⟨hfollow, p.apart⟩

end Phrase

/-! ## Reading one group -/

/-- A request with what a group asks for. -/
def Request.take (r : Request) : Group → Request
  | .scores file => { r with options.scores := some file }
  | .actions file => { r with options.actions := some file }
  | .maxDepth _ depth => { r with options.maxDepth := some depth }
  | .score words => { r with words := some words }
  | .list => { r with list := true }
  | .script path => { r with script := some path }

/-- Arguments that end a list of words before them: there are none, or the first one is an option. -/
def Opens (arguments : List String) : Prop := ∀ a ∈ arguments.head?, isOption a = true

theorem takeWhile_words {words rest : List String} (hwords : ∀ w ∈ words, isOption w = false)
    (hrest : Opens rest) :
    (words ++ rest).takeWhile (!isOption ·) = words ∧
      (words ++ rest).dropWhile (!isOption ·) = rest := by
  have hnot : ∀ w ∈ words, (!isOption w) = true := fun w hw => by rw [hwords w hw]; rfl
  rw [List.takeWhile_append_of_pos hnot, List.dropWhile_append_of_pos hnot]
  cases rest with
  | nil => simp
  | cons a rest =>
    have ha : isOption a = true := hrest a rfl
    simp [ha]

/-- A group that is no script is read as a whole, whatever has been asked for before. -/
theorem read_group (r : Request) {g : Group} {rest : List String} (hg : g.Valid)
    (hscript : g.kind ≠ .script) (hopens : g.kind = .score → Opens rest) :
    r.read (g.arguments ++ rest) = (r.take g).read rest := by
  cases g with
  | scores file => exact Request.read.eq_3 r file rest
  | actions file => exact Request.read.eq_5 r file rest
  | maxDepth numeral depth =>
    have hdepth : Text.natural? maxLimit numeral.toList = some depth := Text.natural?_eq_some.2 hg
    exact (Request.read.eq_7 r numeral rest).trans (by rw [hdepth]; rfl)
  | score words =>
    obtain ⟨htake, hdrop⟩ := takeWhile_words hg (hopens rfl)
    exact (Request.read.eq_8 r (words ++ rest)).trans (by rw [htake, hdrop]; rfl)
  | list => exact Request.read.eq_9 r rest
  | script path => exact absurd rfl hscript

/-- A script is taken if it is the first one. -/
theorem read_script (r : Request) {path : String} (hg : (Group.script path).Valid)
    (rest : List String) :
    r.read (path :: rest) =
      if r.script.isSome then .error (.unexpectedArgument path)
      else (r.take (.script path)).read rest := by
  have hne : ∀ option, isOption option = true → path ≠ option := by
    rintro option hoption rfl
    rw [hg.1] at hoption
    cases hoption
  rw [Request.read.eq_12 r path rest (hne _ (by decide)) (hne _ (by decide)) (hne _ (by decide))
    (hne _ (by decide)) (hne _ (by decide)) (hne _ (by decide)) hg.2, if_neg (by simp [hg.1])]
  cases r.script <;> rfl

/-! ## Reading a list of groups -/

theorem Phrase.scripts_eq (p : Phrase) : p.scripts = (p.ofKind .script).filterMap Group.script? := by
  rw [Phrase.scripts, scriptsOf, Phrase.ofKind, List.filterMap_filter]
  congr 1
  funext g
  cases g <;> rfl

/-- A group that is no script starts with an option. -/
theorem opens_arguments {g : Group} (h : g.kind ≠ .script) (rest : List String) :
    Opens (g.arguments ++ rest) := by
  intro a ha
  cases g with
  | script path => exact absurd rfl h
  | scores | actions | maxDepth | score | list =>
    obtain rfl := Option.some.inj ha
    decide

/-- Groups are read one after the other, up to a second script. -/
theorem read_arguments {gs : List Group} (hvalid : ∀ g ∈ gs, g.Valid)
    (hapart : gs.IsChain fun g h => ¬ (g.kind = .score ∧ h.kind = .script)) {rest : List String}
    (hrest : ∀ g ∈ gs.getLast?, g.kind = .score → Opens rest) (r : Request) :
    r.read (argumentsOf gs ++ rest) =
      (r.script.toList ++ scriptsOf gs)[1]?.elim ((gs.foldl Request.take r).read rest)
        (fun path => .error (.unexpectedArgument path)) := by
  induction gs generalizing r with
  | nil => cases h : r.script <;> rfl
  | cons g gs ih =>
    obtain ⟨hg, hvalid⟩ := List.forall_mem_cons.1 hvalid
    obtain ⟨hfollow, hapart⟩ := List.isChain_cons.1 hapart
    have hlast : ∀ h ∈ gs.getLast?, h.kind = .score → Opens rest := by
      intro h hh
      apply hrest
      rw [List.getLast?_cons, Option.mem_def.1 hh]
      rfl
    have hopens : g.kind = .score → Opens (argumentsOf gs ++ rest) := by
      intro hscore
      cases gs with
      | nil => exact hrest g rfl hscore
      | cons h gs =>
        rw [argumentsOf_cons, List.append_assoc]
        exact opens_arguments (fun hscript => hfollow h rfl ⟨hscore, hscript⟩) _
    have hread := ih hvalid hapart hlast (r.take g)
    rw [argumentsOf_cons, List.append_assoc]
    cases g with
    | script path =>
      rw [Group.arguments, List.singleton_append, read_script r hg]
      cases hr : r.script with
      | none => exact hread
      | some _ => rfl
    | scores | actions | maxDepth | score | list =>
      rw [read_group r hg (by rintro ⟨⟩) hopens]
      exact hread

theorem lastOf_concat (kind : Kind) (gs : List Group) (g : Group) :
    lastOf kind (gs ++ [g]) = if g.kind = kind then some g else lastOf kind gs := by
  rw [lastOf, List.filter_append, List.getLast?_append]
  split <;> simp [*, lastOf]

theorem requestOf_concat (gs : List Group) (g : Group) :
    requestOf (gs ++ [g]) = (requestOf gs).take g := by
  simp only [requestOf, lastOf_concat]
  cases g <;> rfl

theorem foldl_take (gs : List Group) : gs.foldl Request.take {} = requestOf gs := by
  induction gs using List.reverseRecOn with
  | nil => rfl
  | append_singleton gs g ih =>
    rw [List.foldl_append, ih, requestOf_concat]
    rfl

/-- The arguments of a phrase give what its groups ask for, unless there is a second script. -/
theorem parse_arguments (p : Phrase) :
    parse p.arguments =
      p.scripts[1]?.elim (requestOf p.groups).command (fun path => .error (.unexpectedArgument path)) := by
  have hend : ∀ g ∈ p.groups.getLast?, g.kind = .score → Opens [] := by rintro _ _ _ _ ⟨⟩
  have hread := read_arguments p.valid p.apart hend {}
  rw [List.append_nil, foldl_take, Request.read.eq_1] at hread
  exact hread

/-! ## Jobs -/

def Request.jobs (r : Request) : List Job :=
  [r.words.map Job.score, if r.list then some .list else none, r.script.map Job.run].reduceOption

theorem Request.command_of_jobs {r : Request} {job : Job} (h : r.jobs = [job]) :
    r.command = .ok (.perform r.options job) := by
  obtain ⟨options, words, list, script⟩ := r
  cases words <;> cases list <;> cases script <;> cases h <;> rfl

theorem Request.command_of_length_jobs {r : Request} (h : r.jobs.length ≠ 1) :
    ∃ misuse, r.command = .error misuse := by
  cases hcommand : r.command with
  | error misuse => exact ⟨misuse, rfl⟩
  | ok command =>
    refine absurd ?_ h
    obtain ⟨options, words, list, script⟩ := r
    cases words <;> cases list <;> cases script <;> cases hcommand <;> rfl

theorem kind_of_lastOf {kind : Kind} {gs : List Group} {g : Group} (h : lastOf kind gs = some g) :
    g.kind = kind := by
  have hmem := List.mem_of_getLast? h
  exact of_decide_eq_true (List.mem_filter.1 hmem).2

theorem bind_lastOf {α : Type} {kind : Kind} {f k : Group → Option α}
    (h : ∀ g, g.kind = kind → f g = k g) (gs : List Group) :
    (lastOf kind gs).bind f = (lastOf kind gs).bind k := by
  cases hlast : lastOf kind gs with
  | none => rfl
  | some g => exact h g (kind_of_lastOf hlast)

theorem Phrase.jobs_eq (p : Phrase) : p.jobs = (requestOf p.groups).jobs := by
  have hscore : (p.last .score).bind Group.job? = (requestOf p.groups).words.map Job.score := by
    rw [requestOf, Option.map_bind]
    exact bind_lastOf (fun g hg => by cases g <;> cases hg; rfl) p.groups
  have hlist : (p.last .list).bind Group.job? =
      if (requestOf p.groups).list then some Job.list else none := by
    rw [Phrase.last, bind_lastOf (k := fun _ => some Job.list) (fun g hg => by cases g <;> cases hg; rfl)]
    cases h : lastOf .list p.groups <;> simp [requestOf, h]
  have hscript : (p.last .script).bind Group.job? = (requestOf p.groups).script.map Job.run := by
    rw [requestOf, Option.map_bind]
    exact bind_lastOf (fun g hg => by cases g <;> cases hg; rfl) p.groups
  rw [Request.jobs, ← hscore, ← hlist, ← hscript, List.reduceOption]
  rfl

end Beatnik.CommandLine

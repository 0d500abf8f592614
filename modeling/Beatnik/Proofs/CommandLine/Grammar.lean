import Beatnik.Proofs.CommandLine.Groups

/-!
# Which command lines are understood

Arguments give a command if they are the arguments of a phrase with at most one script, or such arguments
and then a request for help; all others are misuse.  How the arguments of a phrase are read is known
(`read_arguments`).  For the other direction, each step of the reading fails, ends or has read one group
(`Explains.cons`):

    r.read arguments = .ok command → Explains r arguments command                (explains_of_read)
    parse arguments = .ok .help ↔ AsksHelp arguments                           (parse_eq_help_iff)

Tables that no option names come from the environment (`parseIn`).
-/

namespace Beatnik.CommandLine

/-! ## Requests for help -/

/-- Whether a flag that follows a phrase asks for help.  Directly after words to score, `-h` is one more of
them. -/
def Phrase.Meets (p : Phrase) (flag : String) : Prop :=
  flag = "--help" ∨ flag = "-h" ∧ ∀ g ∈ p.groups.getLast?, g.kind ≠ .score

/-- Arguments that ask for help where an option may stand, before anything is wrong with them. -/
def AsksHelp (arguments : List String) : Prop :=
  ∃ (p : Phrase) (flag : String) (rest : List String),
    p.scripts.length ≤ 1 ∧ p.Meets flag ∧ arguments = p.arguments ++ flag :: rest

theorem Phrase.Meets.opens {p : Phrase} {flag : String} (h : p.Meets flag) (rest : List String) :
    ∀ g ∈ p.groups.getLast?, g.kind = .score → Opens (flag :: rest) := by
  intro g hg hscore a ha
  obtain rfl := Option.some.inj ha
  obtain rfl | ⟨-, hlast⟩ := h
  · decide
  · exact absurd hscore (hlast g hg)

theorem Phrase.Meets.read {p : Phrase} {flag : String} (h : p.Meets flag) (r : Request)
    (rest : List String) : r.read (flag :: rest) = .ok .help := by
  obtain rfl | ⟨rfl, -⟩ := h
  · exact Request.read.eq_10 r rest
  · exact Request.read.eq_11 r rest

theorem AsksHelp.parse {arguments : List String} (h : AsksHelp arguments) :
    parse arguments = .ok .help := by
  obtain ⟨p, flag, rest, hscripts, hmeets, rfl⟩ := h
  have hread := read_arguments p.valid p.apart (hmeets.opens rest) {}
  have hone : (Option.toList none ++ scriptsOf p.groups)[1]? = none := List.getElem?_eq_none hscripts
  rw [hone, Option.elim_none, hmeets.read] at hread
  exact hread

/-! ## What has been read -/

/-- How arguments give a command after a request: they are a phrase, or a phrase and a request for help. -/
def Explains (r : Request) (arguments : List String) (command : Command) : Prop :=
  ∃ p : Phrase, (r.script.toList ++ p.scripts).length ≤ 1 ∧
    (arguments = p.arguments ∧ (p.groups.foldl Request.take r).command = .ok command ∨
      command = .help ∧ ∃ flag rest, p.Meets flag ∧ arguments = p.arguments ++ flag :: rest)

/-- A phrase that ends a list of words before it does not start with a script. -/
theorem Opens.kind_ne_script {p : Phrase} {rest : List String} (hopens : Opens (p.arguments ++ rest)) :
    ∀ g ∈ p.groups.head?, g.kind ≠ .script := by
  intro g hg hscript
  have hvalid := p.valid g (List.mem_of_head? hg)
  rw [Phrase.arguments, List.eq_cons_of_mem_head? hg, argumentsOf_cons] at hopens
  cases g with
  | script path =>
    have hoption : isOption path = true := hopens path rfl
    rw [hvalid.1] at hoption
    cases hoption
  | scores | actions | maxDepth | score | list => cases hscript

theorem Phrase.Meets.cons {p : Phrase} {flag : String} (h : p.Meets flag) {g : Group} {hg : g.Valid}
    {hfollow : ∀ h ∈ p.groups.head?, ¬ (g.kind = .score ∧ h.kind = .script)} {rest : List String}
    (hopens : g.kind = .score → Opens (p.arguments ++ flag :: rest)) :
    (p.cons g hg hfollow).Meets flag := by
  obtain rfl | ⟨rfl, hlast⟩ := h
  · exact .inl rfl
  · refine .inr ⟨rfl, fun k hk => ?_⟩
    obtain ⟨groups, valid, apart⟩ := p
    cases groups with
    | nil =>
      -- words to score would have taken the flag
      obtain rfl := Option.some.inj hk
      exact fun hscore => absurd (hopens hscore "-h" rfl) (by decide)
    | cons h gs => exact hlast k (List.getLast?_cons_cons ▸ hk)

/-- One group more in front of what gives a command. -/
theorem Explains.cons {r : Request} {g : Group} {rest : List String} {command : Command}
    (h : Explains (r.take g) rest command) (hg : g.Valid) (hopens : g.kind = .score → Opens rest)
    (hscript : g.kind = .script → r.script = none) : Explains r (g.arguments ++ rest) command := by
  obtain ⟨p, hscripts, hrest⟩ := h
  have hprefix : ∃ more, rest = p.arguments ++ more := by
    obtain ⟨rfl, -⟩ | ⟨-, flag, more, -, rfl⟩ := hrest
    · exact ⟨[], (List.append_nil _).symm⟩
    · exact ⟨flag :: more, rfl⟩
  have hfollow : ∀ h ∈ p.groups.head?, ¬ (g.kind = .score ∧ h.kind = .script) := by
    rintro h hh ⟨hscore, hkind⟩
    obtain ⟨more, rfl⟩ := hprefix
    exact (hopens hscore).kind_ne_script h hh hkind
  have hone : (r.script.toList ++ (p.cons g hg hfollow).scripts).length ≤ 1 := by
    cases g with
    | script path =>
      rw [hscript rfl]
      exact hscripts
    | scores | actions | maxDepth | score | list => exact hscripts
  refine ⟨p.cons g hg hfollow, hone, ?_⟩
  obtain ⟨rfl, hcommand⟩ | ⟨rfl, flag, more, hmeets, rfl⟩ := hrest
  · exact .inl ⟨rfl, hcommand⟩
  · exact .inr ⟨rfl, flag, more, hmeets.cons hopens, (List.append_assoc ..).symm⟩

theorem opens_dropWhile (arguments : List String) : Opens (arguments.dropWhile (!isOption ·)) := by
  intro a ha
  have hhead := List.head?_dropWhile_not (!isOption ·) arguments
  rw [Option.mem_def.1 ha] at hhead
  simpa using hhead

def Phrase.empty : Phrase := ⟨[], by simp, .nil⟩

theorem length_scripts_empty (r : Request) : (r.script.toList ++ Phrase.empty.scripts).length ≤ 1 := by
  cases r.script with
  | none => exact Nat.zero_le 1
  | some path => exact Nat.le_refl 1

theorem Explains.help {r : Request} {flag : String} (h : Phrase.empty.Meets flag) (rest : List String) :
    Explains r (flag :: rest) .help :=
  ⟨.empty, length_scripts_empty r, .inr ⟨rfl, flag, rest, h, rfl⟩⟩

/-- Whatever reading accepts has an explanation: each step that does not fail has read one group. -/
theorem explains_of_read {r : Request} {arguments : List String} {command : Command}
    (h : r.read arguments = .ok command) : Explains r arguments command := by
  fun_induction Request.read r arguments with
  | case1 r => exact ⟨.empty, length_scripts_empty r, .inl ⟨rfl, h⟩⟩
  | case2 | case4 | case6 | case8 | case13 | case15 => cases h
  | case3 r file rest ih => exact (ih h).cons (g := .scores file) trivial (by rintro ⟨⟩) (by rintro ⟨⟩)
  | case5 r file rest ih => exact (ih h).cons (g := .actions file) trivial (by rintro ⟨⟩) (by rintro ⟨⟩)
  | case7 r value rest depth hdepth ih =>
    exact (ih h).cons (g := .maxDepth value depth) (Text.natural?_eq_some.1 hdepth) (by rintro ⟨⟩)
      (by rintro ⟨⟩)
  | case9 r rest _ ih =>
    have hwords : ∀ w ∈ rest.takeWhile (!isOption ·), isOption w = false := by
      intro w hw
      simpa using List.mem_takeWhile_imp hw
    have hcons := (ih h).cons (g := .score _) hwords (fun _ => opens_dropWhile rest) (by rintro ⟨⟩)
    rwa [Group.arguments, List.cons_append, List.takeWhile_append_dropWhile] at hcons
  | case10 r rest ih => exact (ih h).cons (g := .list) trivial (by rintro ⟨⟩) (by rintro ⟨⟩)
  | case11 r rest =>
    obtain rfl := Except.ok.inj h
    exact .help (.inl rfl) rest
  | case12 r rest =>
    obtain rfl := Except.ok.inj h
    exact .help (.inr ⟨rfl, by rintro _ ⟨⟩⟩) rest
  | case14 r path rest _ _ _ _ _ _ hhelp hoption hnone ih =>
    have hvalid : (Group.script path).Valid := ⟨Bool.not_eq_true _ ▸ hoption, hhelp⟩
    exact (ih h).cons (g := .script path) hvalid (by rintro ⟨⟩) (fun _ => hnone)

theorem Request.command_ne_help (r : Request) : r.command ≠ .ok .help := by
  rw [Request.command]
  split <;> rintro ⟨⟩

theorem parse_eq_help_iff {arguments : List String} : parse arguments = .ok .help ↔ AsksHelp arguments := by
  refine ⟨fun h => ?_, AsksHelp.parse⟩
  obtain ⟨p, hscripts, ⟨-, hcommand⟩ | ⟨-, flag, rest, hmeets, harguments⟩⟩ := explains_of_read h
  · exact absurd hcommand (Request.command_ne_help _)
  · exact ⟨p, flag, rest, hscripts, hmeets, harguments⟩

theorem exists_phrase_of_parse {arguments : List String} {options : Options} {job : Job}
    (h : parse arguments = .ok (.perform options job)) :
    ∃ p : Phrase, p.scripts.length ≤ 1 ∧ p.arguments = arguments := by
  obtain ⟨p, hscripts, ⟨harguments, -⟩ | ⟨hhelp, -⟩⟩ := explains_of_read h
  · exact ⟨p, hscripts, harguments.symm⟩
  · cases hhelp

/-! ## The environment -/

/-- Options with the tables of the environment for those that they do not name. -/
def Options.within (env : Environment) (o : Options) : Options :=
  { o with scores := o.scores <|> env.scores, actions := o.actions <|> env.actions }

def Command.within (env : Environment) : Command → Command
  | .help => .help
  | .perform options job => .perform (options.within env) job

/-- The command that the arguments give in an environment. -/
def parseIn (env : Environment) (arguments : List String) : Except Misuse Command :=
  (parse arguments).map (Command.within env)

/-- Carries out what has been read, without an environment. -/
def carryOut (fuel : Nat) (files : Files) (input : List UInt8) :
    Except Misuse Command → Option Exit
  | .error misuse => some (.failed [] { fault := misuse.fault })
  | .ok command =>
    match command.prepare files {} (.ofBytes input) with
    | .error failure => some (.failed [] failure)
    | .ok work => work.finish fuel

theorem Options.machine_within (o : Options) (files : Files) (env : Environment) (source : Source) :
    (o.within env).machine files {} source = o.machine files env source := by
  obtain ⟨scores, actions, depth⟩ := o
  obtain ⟨scores', actions'⟩ := env
  cases scores <;> cases actions <;> cases scores' <;> cases actions' <;> rfl

theorem Command.prepare_within (command : Command) (files : Files) (env : Environment)
    (source : Source) : (command.within env).prepare files {} source = command.prepare files env source := by
  cases command with
  | help => rfl
  | perform options job =>
    rw [Command.within, Command.prepare, Command.prepare, Options.machine_within]

/-- Running the arguments is to read them in the environment and to carry out what has been read. -/
theorem run_eq_carryOut (fuel : Nat) (files : Files) (env : Environment) (input : List UInt8)
    (arguments : List String) :
    run fuel files env input arguments = carryOut fuel files input (parseIn env arguments) := by
  rw [run, parseIn]
  cases parse arguments with
  | error misuse => rfl
  | ok command =>
    have hwithin := command.prepare_within files env (.ofBytes input)
    cases hprepare : command.prepare files env (.ofBytes input) with
    | error failure => simp only [Except.map, carryOut, hwithin, hprepare]
    | ok work => simp only [Except.map, carryOut, hwithin, hprepare]

/-! ## The grammar -/

/-- Arguments that are refused as a fault in the configuration. -/
def Refused (env : Environment) (arguments : List String) : Prop :=
  ∃ misuse, parseIn env arguments = .error misuse ∧ misuse.fault.kind = .configuration

theorem refused_of_parse {env : Environment} {arguments : List String} {misuse : Misuse}
    (h : parse arguments = .error misuse) : Refused env arguments := by
  refine ⟨misuse, ?_, rfl⟩
  rw [parseIn, h]
  rfl

theorem parse_of_length_scripts {p : Phrase} (h : p.scripts.length ≤ 1) :
    parse p.arguments = (requestOf p.groups).command := by
  rw [parse_arguments, List.getElem?_eq_none h]
  rfl

/-- Groups of different kinds may be put in another order. -/
theorem parse_of_ofKind_eq {p q : Phrase} (h : ∀ kind, p.ofKind kind = q.ofKind kind) :
    parse p.arguments = parse q.arguments := by
  have hlast : ∀ kind, lastOf kind p.groups = lastOf kind q.groups := fun kind =>
    congrArg List.getLast? (h kind)
  have hscripts : p.scripts = q.scripts := by
    rw [Phrase.scripts_eq, Phrase.scripts_eq, h]
  rw [parse_arguments, parse_arguments, hscripts]
  simp only [requestOf, hlast]

theorem refused_of_not_phrase {env : Environment} {arguments : List String}
    (hphrase : ¬ ∃ p : Phrase, p.scripts.length ≤ 1 ∧ p.arguments = arguments)
    (hhelp : ¬ AsksHelp arguments) : Refused env arguments := by
  cases hparse : parse arguments with
  | error misuse => exact refused_of_parse hparse
  | ok command =>
    cases command with
    | help => exact absurd (parse_eq_help_iff.1 hparse) hhelp
    | perform options job => exact absurd (exists_phrase_of_parse hparse) hphrase

theorem parseIn_eq_help_iff {env : Environment} {arguments : List String} :
    parseIn env arguments = .ok .help ↔ AsksHelp arguments := by
  rw [← parse_eq_help_iff, parseIn]
  cases parse arguments with
  | error misuse => exact ⟨by rintro ⟨⟩, by rintro ⟨⟩⟩
  | ok command =>
    cases command with
    | help => exact ⟨fun _ => rfl, fun _ => rfl⟩
    | perform options job => exact ⟨by rintro ⟨⟩, by rintro ⟨⟩⟩

/-- **Command lines are read by their grammar.**  Arguments are carried out as they are read in the
environment.  A phrase with at most one script gives a command if just one of the three kinds of groups
with a job occurs in it: the job of the last such group, with the last table named of each kind, or else
that of the environment, and with the last stack depth.  Otherwise it is refused.  Groups of different kinds
may be put in another order.  Help is given if it is asked for where an option may stand, and arguments
that neither ask for it nor are such a phrase are refused. -/
theorem parse_by_groups (env : Environment) :
    (∀ fuel files input arguments,
      run fuel files env input arguments = carryOut fuel files input (parseIn env arguments)) ∧
    (∀ p : Phrase, p.scripts.length ≤ 1 →
      (∀ job, p.jobs = [job] →
        parseIn env p.arguments = .ok (.perform {
          scores := (p.last .scores).bind Group.file? <|> env.scores
          actions := (p.last .actions).bind Group.file? <|> env.actions
          maxDepth := (p.last .maxDepth).bind Group.depth? } job)) ∧
      (p.jobs.length ≠ 1 → Refused env p.arguments)) ∧
    (∀ p q : Phrase, (∀ kind, p.ofKind kind = q.ofKind kind) →
      parseIn env p.arguments = parseIn env q.arguments) ∧
    (∀ arguments, parseIn env arguments = .ok .help ↔ AsksHelp arguments) ∧
    (∀ arguments, (¬ ∃ p : Phrase, p.scripts.length ≤ 1 ∧ p.arguments = arguments) →
      ¬ AsksHelp arguments → Refused env arguments) := by
  refine ⟨fun fuel files input arguments => run_eq_carryOut fuel files env input arguments, ?_, ?_,
    fun _ => parseIn_eq_help_iff, fun _ => refused_of_not_phrase⟩
  · intro p hscripts
    have hparse := parse_of_length_scripts hscripts
    constructor
    · intro job hjobs
      rw [p.jobs_eq] at hjobs
      rw [parseIn, hparse, Request.command_of_jobs hjobs]
      rfl
    · intro hjobs
      rw [p.jobs_eq] at hjobs
      obtain ⟨misuse, hcommand⟩ := Request.command_of_length_jobs hjobs
      exact refused_of_parse (hparse.trans hcommand)
  · intro p q h
    rw [parseIn, parse_of_ofKind_eq h, parseIn]

/-- A file and a word that look like requests for help are none.  The same groups in another order give the
same command.  After `--words` a script is one job too many, `-h` is a request for help, and an unknown
option comes too late to be noticed; one that comes first is refused. -/
theorem parse_by_groups_swallowed_help :
    let env : Environment := { scores := some "points", actions := some "effects" }
    parseIn env ["--max-depth", "3", "--scores", "old", "--score", "quiz", "-h", "--max-depth", "+7",
        "--scores", "--help"] =
      .ok (.perform { scores := some "--help", actions := some "effects", maxDepth := some 7 }
        (.score ["quiz", "-h"])) ∧
    parseIn env ["--scores", "old", "--scores", "--help", "--max-depth", "3", "--max-depth", "+7",
        "--score", "quiz", "-h"] =
      parseIn env ["--max-depth", "3", "--scores", "old", "--score", "quiz", "-h", "--max-depth", "+7",
        "--scores", "--help"] ∧
    Refused env ["--words", "script"] ∧
    parseIn env ["--score", "-h", "--words", "-h", "--depth"] = .ok .help ∧
    Refused env ["--depth", "--help"] := by
  intro env
  obtain ⟨-, hphrase, horder, hhelp, hother⟩ := parse_by_groups env
  let words : Group := .score ["quiz", "-h"]
  let p : Phrase :=
    ⟨[.maxDepth "3" 3, .scores "old", words, .maxDepth "+7" 7, .scores "--help"], by decide +kernel,
      by decide⟩
  let q : Phrase :=
    ⟨[.scores "old", .scores "--help", .maxDepth "3" 3, .maxDepth "+7" 7, words], by decide +kernel,
      by decide⟩
  let both : Phrase := ⟨[.list, .script "script"], by decide +kernel, by decide⟩
  let before : Phrase := ⟨[.score ["-h"], .list], by decide +kernel, by decide⟩
  -- no group has an unknown option
  have hnone : ∀ (p : Phrase) (rest : List String), p.arguments ++ rest = ["--depth", "--help"] →
      rest = ["--depth", "--help"] := by
    rintro ⟨groups, valid, apart⟩ rest h
    cases groups with
    | nil => exact h
    | cons g gs =>
      have hg := valid g List.mem_cons_self
      have hhead := congrArg List.head? h
      cases g with
      | script path =>
        obtain rfl := Option.some.inj hhead
        exact absurd hg (by decide +kernel)
      | scores | actions | maxDepth | score | list => exact absurd (Option.some.inj hhead) (by decide)
  refine ⟨(hphrase p (by decide)).1 _ rfl, horder q p (fun kind => by cases kind <;> rfl),
    (hphrase both (by decide)).2 (by decide), ?_, hother _ ?_ ?_⟩
  · exact (hhelp _).2 ⟨before, "-h", ["--depth"], by decide, .inr ⟨rfl, by decide⟩, rfl⟩
  · rintro ⟨p, -, h⟩
    cases hnone p [] ((List.append_nil _).trans h)
  · rintro ⟨p, flag, rest, -, hmeets, h⟩
    obtain ⟨rfl, -⟩ := List.cons.inj (hnone p _ h.symm)
    obtain hflag | ⟨hflag, -⟩ := hmeets
    · exact absurd hflag (by decide)
    · exact absurd hflag (by decide)

end Beatnik.CommandLine

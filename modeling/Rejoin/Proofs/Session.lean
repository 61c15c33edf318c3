import Rejoin.Proofs.Outcome
import Rejoin.Session

/-!
# Answers of a session

A session keeps what it has computed. Here it is shown that this never changes an answer. For every
question there is the answer computed afresh from the program, `Program.graphAt` and the like. A
session is sound, `Session.Sound`, if all it keeps are such answers, and `Session.Gives` says that
a question gets a certain answer and leaves the session sound. Each question to a sound session
gets the fresh answer, so `Program.analyse` is the fresh analysis of each function in turn:
`Program.analyse_eq_mapM`. More generally, in any row of questions, failed ones included, each gets
the answer that it gets as the first one of all: `Session.answers_eq_first`.
-/

namespace Rejoin

/-! ## Fresh answers -/

/-- What the dependents of the branches of a function are computed from. -/
def Func.setting (f : Func) (isa : Isa) (functionId : UInt32) (g : Graph) : Setting where
  func := f
  isa := isa
  numbering := Numbering.ofFunc isa functionId f
  consumers := (DefUse.ofFunc f).consumers
  graph := g
  point? := (PostDominators.ofGraph g).immediate?

/-- The control flow graph of a function that has blocks. -/
def Func.graph (f : Func) : Except AnalysisError Graph :=
  if f.blocks.isEmpty then .error (.declaration f.name)
  else match Graph.ofBlocks? f.transfers with
    | none => .error .danglingTarget
    | some g => .ok g

/-- The dependents of the branches of a function. -/
def Func.dependencies (f : Func) (isa : Isa) (functionId : UInt32) :
    Except AnalysisError Dependencies :=
  if f.blocks.isEmpty then .ok (Dependencies.empty f (Numbering.ofFunc isa functionId f))
  else f.graph >>= fun g => Dependencies.analyse (f.setting isa functionId g)

namespace Program

/-- The function at a place of the program. -/
def functionAt (program : Program) (ordinal : Nat) : Except AnalysisError Func :=
  match program.functions[ordinal]? with
  | some f => .ok f
  | none => .error (.unknownFunction ordinal)

/-- The control flow graph of the function at a place. -/
def graphAt (program : Program) (ordinal : Nat) : Except AnalysisError Graph :=
  program.functionAt ordinal >>= Func.graph

/-- The post-dominators of the function at a place. -/
def postDominatorsAt (program : Program) (ordinal : Nat) : Except AnalysisError PostDominators :=
  program.graphAt ordinal >>= fun g => .ok (PostDominators.ofGraph g)

/-- The numbering of the function at a place. -/
def numberingAt (program : Program) (isa : Isa) (ordinal : Nat) : Except AnalysisError Numbering :=
  program.functionAt ordinal >>= fun f => .ok (Numbering.ofFunc isa (functionId ordinal) f)

/-- The def-use edges of the function at a place. -/
def defUseAt (program : Program) (ordinal : Nat) : Except AnalysisError DefUse :=
  program.functionAt ordinal >>= fun f => .ok (DefUse.ofFunc f)

/-- The dependents of the branches of the function at a place. -/
def dependenciesAt (program : Program) (isa : Isa) (ordinal : Nat) :
    Except AnalysisError Dependencies :=
  program.functionAt ordinal >>= fun f => f.dependencies isa (functionId ordinal)

end Program

namespace Session

/-- Everything a session keeps is what would be computed afresh. -/
structure Sound (s : Session) : Prop where
  /-- The graphs are fresh answers. -/
  graphs : ∀ n g, s.graphs.lookup n = some g → s.program.graphAt n = .ok g
  /-- The post-dominators are fresh answers. -/
  postDominators : ∀ n pd, s.postDominators.lookup n = some pd →
    s.program.postDominatorsAt n = .ok pd
  /-- The numberings are fresh answers. -/
  numberings : ∀ n numbering, s.numberings.lookup n = some numbering →
    s.program.numberingAt s.isa n = .ok numbering
  /-- The def-use edges are fresh answers. -/
  defUses : ∀ n edges, s.defUses.lookup n = some edges → s.program.defUseAt n = .ok edges

/-- The question gets the answer, and the session stays sound and about the same program and
instruction set. -/
def Gives {α : Type} (s : Session) (query : Query α) (answer : Except AnalysisError α) : Prop :=
  ∃ s', s.ask query = (answer, s') ∧ s'.Sound ∧ s'.program = s.program ∧ s'.isa = s.isa

/-- A session that keeps nothing is sound. -/
theorem sound_start (program : Program) (isa : Isa) : Sound { program, isa } where
  graphs := by simp
  postDominators := by simp
  numberings := by simp
  defUses := by simp

/-! ## Questions made of questions -/

section Query

variable {α β : Type} {s : Session}

/-- A query that follows another is asked of the session the other has left. -/
theorem ask_bind (s : Session) (query : Query α) (next : α → Query β) :
    s.ask (query >>= next) =
      match s.ask query with
      | (.ok a, s') => s'.ask (next a)
      | (.error e, s') => (.error e, s') := by
  rw [ask, ask, ExceptT.run_bind, StateT.run_bind]
  -- running the first question gives a result and a session, and only the result decides
  change (fun p => StateT.run _ p.2) (StateT.run query.run s) = _
  rcases StateT.run query.run s with ⟨result, s'⟩
  cases result with
  | ok a => rfl
  | error e => rfl

theorem gives_pure (hs : s.Sound) (a : α) : s.Gives (pure a) (.ok a) :=
  ⟨s, rfl, hs, rfl, rfl⟩

theorem gives_throw (hs : s.Sound) (e : AnalysisError) : s.Gives (throw e : Query α) (.error e) :=
  ⟨s, rfl, hs, rfl, rfl⟩

theorem gives_get_bind {next : Session → Query α} {answer : Except AnalysisError α}
    (h : s.Gives (next s) answer) : s.Gives (get >>= next) answer := by
  obtain ⟨s', hask, hkept⟩ := h
  refine ⟨s', ?_, hkept⟩
  rw [ask_bind]
  exact hask

/-- A step that keeps something new before it answers. -/
theorem gives_modify_pure {update : Session → Session} (hs : (update s).Sound)
    (hprogram : (update s).program = s.program) (hisa : (update s).isa = s.isa) (a : α) :
    s.Gives (do modify update; pure a) (.ok a) :=
  ⟨update s, rfl, hs, hprogram, hisa⟩

/-- A question that goes on with another one. What the first one answers may be used for the
second. -/
theorem Gives.bind {query : Query α} {answer : Except AnalysisError α} {next : α → Query β}
    {nextAnswer : α → Except AnalysisError β} (h : s.Gives query answer)
    (hnext : ∀ (a : α) (s' : Session), answer = .ok a → s'.Sound → s'.program = s.program →
      s'.isa = s.isa → s'.Gives (next a) (nextAnswer a)) :
    s.Gives (query >>= next) (answer >>= nextAnswer) := by
  obtain ⟨s', hask, hsound, hprogram, hisa⟩ := h
  rw [Gives, ask_bind, hask]
  cases answer with
  | error e => exact ⟨s', rfl, hsound, hprogram, hisa⟩
  | ok a =>
    obtain ⟨s'', hask', hsound', hprogram', hisa'⟩ := hnext a s' rfl hsound hprogram hisa
    exact ⟨s'', hask', hsound', hprogram'.trans hprogram, hisa'.trans hisa⟩

/-- The same question about each element of a list. -/
theorem gives_mapM {query : β → Query α} {answer : β → Except AnalysisError α} {xs : List β}
    (hs : s.Sound) (h : ∀ x ∈ xs, ∀ s' : Session, s'.Sound → s'.program = s.program →
      s'.isa = s.isa → s'.Gives (query x) (answer x)) :
    s.Gives (xs.mapM query) (xs.mapM answer) := by
  -- the session changes with each query, but stays sound and about the same program
  induction xs generalizing s with
  | nil =>
    rw [List.mapM_nil, List.mapM_nil]
    exact gives_pure hs []
  | cons x xs ih =>
    rw [List.mapM_cons, List.mapM_cons]
    refine (h x List.mem_cons_self s hs rfl rfl).bind fun a s' _ hsound hprogram hisa => ?_
    refine (ih hsound ?_).bind fun rest s'' _ hsound' _ _ => gives_pure hsound' (a :: rest)
    intro y hy s'' hsound' hprogram' hisa'
    exact h y (List.mem_cons_of_mem x hy) s'' hsound' (hprogram'.trans hprogram)
      (hisa'.trans hisa)

/-- A question that goes on with another one, where the answer to the first is known. -/
theorem Gives.bind_ok {query : Query α} {answer : Except AnalysisError α} {a : α}
    {next : α → Query β} {result : Except AnalysisError β} (h : s.Gives query answer)
    (ha : answer = .ok a)
    (hnext : ∀ s' : Session, s'.Sound → s'.program = s.program → s'.isa = s.isa →
      s'.Gives (next a) result) :
    s.Gives (query >>= next) result := by
  subst ha
  have hresult : (Except.ok a >>= fun _ => result) = result := rfl
  rw [← hresult]
  refine h.bind fun b s' hb hsound hprogram hisa => ?_
  obtain rfl := Except.ok.inj hb
  exact hnext s' hsound hprogram hisa

end Query

/-! ## The questions of the analysis -/

section Questions

variable {s : Session} (hs : s.Sound) (n : Nat)

/-- A list of answers to which a fresh one is added has fresh answers only. -/
private theorem fresh_of_lookup_cons {α : Type} {known : List (Nat × α)}
    {answer : Nat → Except AnalysisError α} {a : α}
    (hknown : ∀ m b, known.lookup m = some b → answer m = .ok b) (ha : answer n = .ok a) :
    ∀ m b, ((n, a) :: known).lookup m = some b → answer m = .ok b := by
  intro m b h
  rw [List.lookup_cons] at h
  split at h
  case h_1 heq =>
    rw [eq_of_beq heq, ha, Option.some.inj h]
  case h_2 => exact hknown m b h

include hs

/-- What is known and what would be computed are the same answer. -/
private theorem gives_known {α : Type} {answer : Except AnalysisError α} {a b : α}
    (ha : answer = .ok a) (hb : answer = .ok b) : s.Gives (pure b) (.ok a) := by
  rw [← ha, hb]
  exact gives_pure hs b

theorem gives_function : s.Gives (function n) (s.program.functionAt n) := by
  rw [function, Program.functionAt]
  refine gives_get_bind ?_
  cases s.program.functions[n]? with
  | some f => exact gives_pure hs f
  | none => exact gives_throw hs _

/-- The cached graph is that of the function, and a function whose graph cannot be built is never
cached. -/
theorem gives_graph : s.Gives (graph n) (s.program.graphAt n) := by
  rw [graph]
  refine gives_get_bind ?_
  cases hknown : s.graphs.lookup n with
  | some g =>
    rw [hs.graphs n g hknown]
    exact gives_pure hs g
  | none =>
    refine (gives_function hs n).bind fun f s' hf hsound hprogram _ => ?_
    have hat : s'.program.graphAt n = f.graph := by
      rw [hprogram, Program.graphAt, hf]
      rfl
    rw [Func.graph] at hat ⊢
    -- a graph that cannot be built is not kept, and the error is given again next time
    cases hempty : f.blocks.isEmpty with
    | true => exact gives_throw hsound _
    | false =>
      rw [hempty] at hat
      cases hg : Graph.ofBlocks? f.transfers with
      | none => exact gives_throw hsound _
      | some g =>
        rw [hg] at hat
        exact gives_modify_pure
          { hsound with graphs := fresh_of_lookup_cons n hsound.graphs hat } rfl rfl g

/-- The cached post-dominators are those of the graph. -/
theorem gives_postDominance :
    s.Gives (postDominance n) (s.program.postDominatorsAt n) := by
  rw [postDominance]
  refine (gives_graph hs n).bind fun g s' hg hsound hprogram _ => gives_get_bind ?_
  have hat : s'.program.postDominatorsAt n = .ok (PostDominators.ofGraph g) := by
    rw [hprogram, Program.postDominatorsAt, hg]
    rfl
  cases hknown : s'.postDominators.lookup n with
  | some pd => exact gives_known hsound hat (hsound.postDominators n pd hknown)
  | none =>
    exact gives_modify_pure
      { hsound with postDominators := fresh_of_lookup_cons n hsound.postDominators hat } rfl rfl _

/-- The cached numbering is that of the function for the instruction set of the session. -/
theorem gives_numbering : s.Gives (numbering n) (s.program.numberingAt s.isa n) := by
  rw [numbering]
  refine (gives_function hs n).bind fun f s' hf hsound hprogram hisa => gives_get_bind ?_
  have hat : s'.program.numberingAt s'.isa n =
      .ok (Numbering.ofFunc s'.isa (functionId n) f) := by
    rw [hprogram, Program.numberingAt, hf]
    rfl
  rw [← hisa]
  cases hknown : s'.numberings.lookup n with
  | some numbering => exact gives_known hsound hat (hsound.numberings n numbering hknown)
  | none =>
    exact gives_get_bind (gives_modify_pure
      { hsound with numberings := fresh_of_lookup_cons n hsound.numberings hat } rfl rfl _)

/-- The cached uses are those of the function. -/
theorem gives_defUse : s.Gives (defUse n) (s.program.defUseAt n) := by
  rw [defUse]
  refine (gives_function hs n).bind fun f s' hf hsound hprogram _ => gives_get_bind ?_
  have hat : s'.program.defUseAt n = .ok (DefUse.ofFunc f) := by
    rw [hprogram, Program.defUseAt, hf]
    rfl
  cases hknown : s'.defUses.lookup n with
  | some edges => exact gives_known hsound hat (hsound.defUses n edges hknown)
  | none =>
    exact gives_modify_pure
      { hsound with defUses := fresh_of_lookup_cons n hsound.defUses hat } rfl rfl _

/-- Findings are put together from what is cached, and so they are those of the program. -/
theorem gives_dependencies : s.Gives (dependencies n) (s.program.dependenciesAt s.isa n) := by
  rw [dependencies, Program.dependenciesAt]
  refine (gives_function hs n).bind fun f s₁ hf hs₁ hprogram₁ hisa₁ => ?_
  have hnumbering : s₁.program.numberingAt s₁.isa n =
      .ok (Numbering.ofFunc s.isa (functionId n) f) := by
    rw [hprogram₁, hisa₁, Program.numberingAt, hf]
    rfl
  refine (gives_numbering hs₁ n).bind_ok hnumbering fun s₂ hs₂ hprogram₂ hisa₂ => ?_
  rw [Func.dependencies]
  cases f.blocks.isEmpty with
  | true => exact gives_pure hs₂ _
  | false =>
    -- the session may have grown since, but it is still about the same program
    have hgraph : f.graph = s₂.program.graphAt n := by
      rw [hprogram₂, hprogram₁, Program.graphAt, hf]
      rfl
    rw [hgraph]
    refine (gives_graph hs₂ n).bind fun g s₃ hg hs₃ hprogram₃ hisa₃ => ?_
    have hpd : s₃.program.postDominatorsAt n = .ok (PostDominators.ofGraph g) := by
      rw [hprogram₃, Program.postDominatorsAt, hg]
      rfl
    refine (gives_postDominance hs₃ n).bind_ok hpd fun s₄ hs₄ hprogram₄ hisa₄ => ?_
    have hedges : s₄.program.defUseAt n = .ok (DefUse.ofFunc f) := by
      rw [hprogram₄, hprogram₃, hprogram₂, hprogram₁, Program.defUseAt, hf]
      rfl
    refine (gives_defUse hs₄ n).bind_ok hedges fun s₅ hs₅ _ hisa₅ => gives_get_bind ?_
    have hisa : s₅.isa = s.isa := by
      rw [hisa₅, hisa₄, hisa₃, hisa₂, hisa₁]
    rw [hisa, ← Func.setting]
    dsimp only
    cases Dependencies.analyse (f.setting s.isa (functionId n) g) with
    | ok result => exact gives_pure hs₅ result
    | error e => exact gives_throw hs₅ e

end Questions

/-! ## Rows of questions -/

/-- A question about the function at a place of the program. -/
inductive Question where
  /-- Which function is it? -/
  | function (ordinal : Nat)
  /-- What is its control flow graph? -/
  | graph (ordinal : Nat)
  /-- What are its post-dominators? -/
  | postDominance (ordinal : Nat)
  /-- What is its numbering? -/
  | numbering (ordinal : Nat)
  /-- What are its def-use edges? -/
  | defUse (ordinal : Nat)
  /-- What are the dependents of its branches? -/
  | dependencies (ordinal : Nat)
deriving DecidableEq, Repr, Inhabited

/-- What is told about a function. -/
inductive Answer where
  /-- The function. -/
  | function (f : Func)
  /-- Its control flow graph. -/
  | graph (g : Graph)
  /-- Its post-dominators. -/
  | postDominators (pd : PostDominators)
  /-- Its numbering. -/
  | numbering (numbering : Numbering)
  /-- Its def-use edges. -/
  | defUse (edges : DefUse)
  /-- The dependents of its branches. -/
  | dependencies (deps : Dependencies)
deriving DecidableEq, Repr, Inhabited

/-- How a session is asked a question. -/
def Question.query : Question → Query Answer
  | .function n => Answer.function <$> Session.function n
  | .graph n => Answer.graph <$> Session.graph n
  | .postDominance n => Answer.postDominators <$> Session.postDominance n
  | .numbering n => Answer.numbering <$> Session.numbering n
  | .defUse n => Answer.defUse <$> Session.defUse n
  | .dependencies n => Answer.dependencies <$> Session.dependencies n

/-- The answer to a question, computed afresh. -/
def Question.freshAnswer (program : Program) (isa : Isa) :
    Question → Except AnalysisError Answer
  | .function n => (program.functionAt n).map Answer.function
  | .graph n => (program.graphAt n).map Answer.graph
  | .postDominance n => (program.postDominatorsAt n).map Answer.postDominators
  | .numbering n => (program.numberingAt isa n).map Answer.numbering
  | .defUse n => (program.defUseAt n).map Answer.defUse
  | .dependencies n => (program.dependenciesAt isa n).map Answer.dependencies

/-- The answers to questions that are asked one after the other. A failure is an answer too, and the
session goes on with what it has learned until then. -/
def answers (s : Session) : List Question → List (Except AnalysisError Answer)
  | [] => []
  | question :: rest => (s.ask question.query).1 :: (s.ask question.query).2.answers rest

/-- An answer may be changed after it has been given. -/
theorem Gives.map {α β : Type} {s : Session} {query : Query α} {answer : Except AnalysisError α}
    (h : s.Gives query answer) (f : α → β) : s.Gives (f <$> query) (answer.map f) := by
  rw [map_eq_pure_bind]
  have hbind : s.Gives (query >>= fun a => pure (f a)) (answer >>= fun a => .ok (f a)) :=
    h.bind fun a s' _ hsound _ _ => gives_pure hsound (f a)
  cases answer with
  | ok a => exact hbind
  | error e => exact hbind

/-- A sound session gives the fresh answer to every question. -/
theorem gives_freshAnswer {s : Session} (hs : s.Sound) (question : Question) :
    s.Gives question.query (question.freshAnswer s.program s.isa) := by
  cases question with
  | function n => exact (gives_function hs n).map _
  | graph n => exact (gives_graph hs n).map _
  | postDominance n => exact (gives_postDominance hs n).map _
  | numbering n => exact (gives_numbering hs n).map _
  | defUse n => exact (gives_defUse hs n).map _
  | dependencies n => exact (gives_dependencies hs n).map _

/-- Every question of a row gets the fresh answer, since each of them leaves the session sound. -/
theorem answers_eq_map_freshAnswer {s : Session} (hs : s.Sound) (questions : List Question) :
    s.answers questions = questions.map fun question => question.freshAnswer s.program s.isa := by
  induction questions generalizing s with
  | nil => rfl
  | cons question rest ih =>
    obtain ⟨s', hask, hsound, hprogram, hisa⟩ := gives_freshAnswer hs question
    rw [answers, hask, ih hsound, hprogram, hisa, List.map_cons]

/-- Whatever is asked in a row, each question gets the answer that it gets in a session that has
just started: what a session keeps, and what failed before, changes no answer. -/
theorem answers_eq_first (program : Program) (isa : Isa) (questions : List Question) :
    answers { program, isa } questions =
      questions.map fun question => (ask { program, isa } question.query).1 := by
  have hstart := sound_start program isa
  rw [answers_eq_map_freshAnswer hstart]
  refine List.map_congr_left fun question _ => ?_
  obtain ⟨s', hask, -⟩ := gives_freshAnswer hstart question
  rw [hask]

/-- A jump to a block that does not exist fails wherever the graph is needed, and nowhere else. -/
example :
    let f : Func := .ofBlocks "@f" [("entry", [.jump 7])]
    answers { program := ⟨[f]⟩, isa := .x86 }
        [.dependencies 0, .numbering 0, .graph 0, .function 1] =
      [.error .danglingTarget, .ok (.numbering ⟨functionId 0, [(0, 0)], [0]⟩),
        .error .danglingTarget, .error (.unknownFunction 1)] := by
  decide +kernel

end Session

/-- Analysing a program is analysing its functions one by one. -/
theorem Program.analyse_eq_mapM (program : Program) (isa : Isa) :
    program.analyse isa =
      (List.range program.functions.length).mapM (program.dependenciesAt isa) := by
  have hgives : Session.Gives { program, isa }
      ((List.range program.functions.length).mapM Session.dependencies)
      ((List.range program.functions.length).mapM (program.dependenciesAt isa)) := by
    refine Session.gives_mapM (Session.sound_start program isa) fun n _ s hs hprogram hisa => ?_
    have hdependencies := Session.gives_dependencies hs n
    rw [hprogram, hisa] at hdependencies
    exact hdependencies
  obtain ⟨s, hask, -⟩ := hgives
  rw [Program.analyse, hask]

end Rejoin

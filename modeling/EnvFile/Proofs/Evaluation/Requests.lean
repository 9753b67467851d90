import EnvFile.Environment.Memory
import EnvFile.Proofs.Evaluation.Reporting
import EnvFile.Proofs.Evaluation.Streams

/-!
# Requests one after another

An evaluator keeps its tables from one request to the next and clears them before it evaluates, so
nothing shows of what it did before (`Evaluator.evaluate_eq`).  A request is about a source or
cannot be read for some fault (`Request.exists_supplies_or_faults`).  It comes to a report, to
everything that is malformed in the source, or to the fault, and only a report changes the
environment (`Request.forgets_perform`); so it goes with requests one after another
(`Evaluator.forgets_between_requests`).
-/

namespace EnvFile

variable {ε : Type} [Environment ε]

/-- A wish to evaluate a source. -/
inductive Request
  /-- The source is at hand. -/
  | given (source : Text) (options : Options)
  /-- The source is what a stream hands out. -/
  | streamed (stream : ByteStream) (options : Options)

namespace Request

/-- How the source is evaluated. -/
def options : Request → Options
  | .given _ options => options
  | .streamed _ options => options

/-- Meet a request with an evaluator. -/
def perform (request : Request) (evaluator : Evaluator) (environment : ε) : Evaluation ε :=
  match request with
  | .given source options => evaluator.evaluate source options environment
  | .streamed stream options => evaluator.evaluateStream stream options environment

/-- The source that a request is about. -/
inductive Supplies : Request → Text → Prop
  /-- The source at hand. -/
  | given (source : Text) (options : Options) : Supplies (.given source options) source
  /-- The source of which a stream hands out the bytes to the end. -/
  | streamed {stream : ByteStream} {source : Text} (options : Options)
      (unbroken : stream.breakage? = none)
      (bytes_eq : stream.pieces.flatten = source.flatMap String.utf8EncodeChar) :
      Supplies (.streamed stream options) source

/-- Why a request is about no source. -/
inductive Faults : Request → ReadFault → Prop
  /-- The stream breaks, whatever it hands out before. -/
  | broken {stream : ByteStream} {message : String} (options : Options)
      (breaks : stream.breakage? = some message) :
      Faults (.streamed stream options) (.other message)
  /-- The stream hands out the bytes of no text. -/
  | notText {stream : ByteStream} (options : Options) (unbroken : stream.breakage? = none)
      (bytes_ne : ∀ source : Text,
        stream.pieces.flatten ≠ source.flatMap String.utf8EncodeChar) :
      Faults (.streamed stream options) .notText

theorem exists_supplies_or_faults (request : Request) :
    (∃ source, request.Supplies source) ∨ ∃ fault, request.Faults fault := by
  cases request with
  | given source options => exact .inl ⟨source, .given source options⟩
  | streamed stream options =>
      cases breaks : stream.breakage? with
      | some message => exact .inr ⟨_, .broken options breaks⟩
      | none =>
          by_cases readable :
              ∃ source : Text, stream.pieces.flatten = source.flatMap String.utf8EncodeChar
          · obtain ⟨source, bytes_eq⟩ := readable
            exact .inl ⟨source, .streamed options breaks bytes_eq⟩
          · exact .inr ⟨_, .notText options breaks (not_exists.mp readable)⟩

theorem supplies_ofBytes (source : Text) (options : Options) {size : Nat} (positive : 0 < size) :
    (streamed (.ofBytes (source.flatMap String.utf8EncodeChar) (some size) none) options).Supplies
      source :=
  .streamed options rfl (ByteStream.flatten_cut positive _)

theorem perform_of_supplies {request : Request} {source : Text}
    (supplies : request.Supplies source) (evaluator : Evaluator) (environment : ε) :
    request.perform evaluator environment =
      evaluator.evaluate source request.options environment := by
  cases supplies with
  | given source options => rfl
  | streamed options unbroken bytes_eq =>
      have read := ByteStream.readText_eq_ok_iff.mpr
        ⟨unbroken, bytes_eq.trans (Utf8.encode_eq source).symm⟩
      rw [perform, Evaluator.evaluateStream, read]
      rfl

theorem perform_of_faults {request : Request} {fault : ReadFault} (faults : request.Faults fault)
    (evaluator : Evaluator) (environment : ε) :
    request.perform evaluator environment =
      { evaluator, environment, outcome := .error (.broken fault), events := [] } := by
  cases faults with
  | broken options breaks => rw [perform, Evaluator.evaluateStream, ByteStream.readText, breaks]
  | @notText stream options unbroken bytes_ne =>
      have unreadable : Utf8.decode? stream.pieces.flatten = none := by
        rw [Option.eq_none_iff_forall_ne_some]
        intro source decoded
        exact bytes_ne source
          ((Utf8.decode?_eq_some_iff.mp decoded).trans (Utf8.encode_eq source))
      rw [perform, Evaluator.evaluateStream, ByteStream.readText, unbroken]
      simp only [unreadable]

end Request

/-- All that is seen of an evaluation: not the evaluator. -/
structure Observation (ε : Type) where
  /-- The environment afterwards. -/
  environment : ε
  /-- The report, or why there is none. -/
  outcome : Except Failure Report
  /-- What the log is told. -/
  events : List LogEvent

/-- What is seen of an evaluation. -/
def Evaluation.observation {ε : Type} (evaluation : Evaluation ε) : Observation ε where
  environment := evaluation.environment
  outcome := evaluation.outcome
  events := evaluation.events

/-- An evaluator is cleared before a source is evaluated. -/
theorem Evaluator.evaluate_eq (evaluator : Evaluator) (source : Text) (options : Options)
    (environment : ε) :
    evaluator.evaluate source options environment = evaluate {} source options environment := by
  rw [evaluate, evaluate, Resolution.reset_eq, Resolution.reset_eq]

/-- A request that was met. -/
structure Exchange (ε : Type) where
  /-- The request. -/
  request : Request
  /-- The environment before. -/
  before : ε
  /-- What came of it. -/
  evaluation : Evaluation ε

/-- An exchange shows nothing of what was before it.  It fails for its own request alone, and if it
does, the environment is as before. -/
structure Exchange.Forgets (exchange : Exchange ε) : Prop where
  observation_eq : exchange.evaluation.observation =
    (exchange.request.perform {} exchange.before).observation
  observation_eq_of_supplies : ∀ source, exchange.request.Supplies source →
    exchange.evaluation.observation =
      (Evaluator.evaluate {} source exchange.request.options exchange.before).observation
  environment_eq : ∀ failure, exchange.evaluation.outcome = .error failure →
    exchange.evaluation.environment = exchange.before
  reports_iff : (∃ report, exchange.evaluation.outcome = .ok report) ↔
    ∃ source definitions, exchange.request.Supplies source ∧
      Source.definitions source = .ok definitions
  malformed_iff : ∀ diagnostics, exchange.evaluation.outcome = .error (.malformed diagnostics) ↔
    ∃ source, exchange.request.Supplies source ∧ Source.definitions source = .error diagnostics
  broken_iff : ∀ fault, exchange.evaluation.outcome = .error (.broken fault) ↔
    exchange.request.Faults fault

namespace Request

variable {request : Request} {source : Text}

theorem exists_outcome_eq_ok (supplies : request.Supplies source) {definitions : List Definition}
    (scans : Source.definitions source = .ok definitions) (evaluator : Evaluator)
    (environment : ε) : ∃ report, (request.perform evaluator environment).outcome = .ok report := by
  obtain ⟨report, outcome_eq, _⟩ := evaluator.exists_report scans request.options environment
  rw [perform_of_supplies supplies]
  exact ⟨report, outcome_eq⟩

theorem perform_of_malformed (supplies : request.Supplies source) {diagnostics : List Diagnostic}
    (scans : Source.definitions source = .error diagnostics) (evaluator : Evaluator)
    (environment : ε) :
    (request.perform evaluator environment).outcome = .error (.malformed diagnostics) ∧
      (request.perform evaluator environment).environment = environment := by
  rw [perform_of_supplies supplies, evaluator.evaluate_eq]
  simp only [Evaluator.evaluate, scans]
  exact ⟨rfl, trivial⟩

theorem perform_cases (request : Request) (evaluator : Evaluator) (before : ε) :
    (∃ source definitions report, request.Supplies source ∧
      Source.definitions source = .ok definitions ∧
      (request.perform evaluator before).outcome = .ok report) ∨
    (∃ source diagnostics, request.Supplies source ∧
      Source.definitions source = .error diagnostics ∧
      (request.perform evaluator before).outcome = .error (.malformed diagnostics)) ∨
    ∃ fault, request.Faults fault ∧
      (request.perform evaluator before).outcome = .error (.broken fault) := by
  rcases request.exists_supplies_or_faults with ⟨source, supplies⟩ | ⟨fault, faults⟩
  · cases scans : Source.definitions source with
    | ok definitions =>
        obtain ⟨report, outcome_eq⟩ := exists_outcome_eq_ok supplies scans evaluator before
        exact .inl ⟨source, definitions, report, supplies, scans, outcome_eq⟩
    | error diagnostics =>
        have outcome_eq := (perform_of_malformed supplies scans evaluator before).1
        exact .inr (.inl ⟨source, diagnostics, supplies, scans, outcome_eq⟩)
  · exact .inr (.inr ⟨fault, faults, by rw [perform_of_faults faults]⟩)

theorem outcome_eq_ok_iff (request : Request) (evaluator : Evaluator) (before : ε) :
    (∃ report, (request.perform evaluator before).outcome = .ok report) ↔
      ∃ source definitions, request.Supplies source ∧
        Source.definitions source = .ok definitions := by
  constructor
  · rintro ⟨report, reported⟩
    rcases request.perform_cases evaluator before with
      ⟨source, definitions, _, supplies, scans, _⟩ | ⟨_, _, _, _, outcome_eq⟩ | ⟨_, _, outcome_eq⟩
    · exact ⟨source, definitions, supplies, scans⟩
    · simp [outcome_eq] at reported
    · simp [outcome_eq] at reported
  · rintro ⟨source, definitions, supplies, scans⟩
    exact exists_outcome_eq_ok supplies scans evaluator before

theorem outcome_eq_malformed_iff (request : Request) (evaluator : Evaluator) (before : ε)
    (diagnostics : List Diagnostic) :
    (request.perform evaluator before).outcome = .error (.malformed diagnostics) ↔
      ∃ source, request.Supplies source ∧ Source.definitions source = .error diagnostics := by
  constructor
  · intro malformed
    rcases request.perform_cases evaluator before with
      ⟨_, _, _, _, _, outcome_eq⟩ | ⟨source, found, supplies, scans, outcome_eq⟩ |
        ⟨_, _, outcome_eq⟩
    · simp [outcome_eq] at malformed
    · obtain rfl : found = diagnostics := by simpa [outcome_eq] using malformed
      exact ⟨source, supplies, scans⟩
    · simp [outcome_eq] at malformed
  · rintro ⟨source, supplies, scans⟩
    exact (perform_of_malformed supplies scans evaluator before).1

theorem outcome_eq_broken_iff (request : Request) (evaluator : Evaluator) (before : ε)
    (fault : ReadFault) :
    (request.perform evaluator before).outcome = .error (.broken fault) ↔
      request.Faults fault := by
  constructor
  · intro broken
    rcases request.perform_cases evaluator before with
      ⟨_, _, _, _, _, outcome_eq⟩ | ⟨_, _, _, _, outcome_eq⟩ | ⟨found, faults, outcome_eq⟩
    · simp [outcome_eq] at broken
    · simp [outcome_eq] at broken
    · obtain rfl : found = fault := by simpa [outcome_eq] using broken
      exact faults
  · intro faults
    rw [perform_of_faults faults]

/-- A request is met alike by every evaluator. -/
theorem forgets_perform (request : Request) (evaluator : Evaluator) (before : ε) :
    Exchange.Forgets { request, before, evaluation := request.perform evaluator before } where
  observation_eq := by
    rcases request.exists_supplies_or_faults with ⟨source, supplies⟩ | ⟨fault, faults⟩
    · simp only [perform_of_supplies supplies, evaluator.evaluate_eq]
    · simp only [perform_of_faults faults, Evaluation.observation]
  observation_eq_of_supplies source supplies := by
    simp only [perform_of_supplies supplies, evaluator.evaluate_eq]
  environment_eq failure failed := by
    rcases request.perform_cases evaluator before with
      ⟨_, _, report, _, _, outcome_eq⟩ | ⟨source, _, supplies, scans, _⟩ | ⟨fault, faults, _⟩
    · simp [outcome_eq] at failed
    · exact (perform_of_malformed supplies scans evaluator before).2
    · simp only [perform_of_faults faults]
  reports_iff := request.outcome_eq_ok_iff evaluator before
  malformed_iff := request.outcome_eq_malformed_iff evaluator before
  broken_iff := request.outcome_eq_broken_iff evaluator before

end Request

namespace Evaluator

/-- What an evaluator does about requests, one after another. -/
def history : Evaluator → List Request → ε → List (Exchange ε)
  | _, [], _ => []
  | evaluator, request :: requests, environment =>
      let evaluation := request.perform evaluator environment
      { request, before := environment, evaluation } ::
        evaluation.evaluator.history requests evaluation.environment

theorem map_request_history (evaluator : Evaluator) (requests : List Request) (environment : ε) :
    (evaluator.history requests environment).map Exchange.request = requests := by
  induction requests generalizing evaluator environment with
  | nil => rfl
  | cons request requests ih => exact congrArg (List.cons request) (ih _ _)

theorem forgets_of_mem_history {evaluator : Evaluator} {requests : List Request} {environment : ε}
    {exchange : Exchange ε} (member : exchange ∈ evaluator.history requests environment) :
    exchange.Forgets := by
  induction requests generalizing evaluator environment with
  | nil => simp [history] at member
  | cons request requests ih =>
      rcases List.mem_cons.mp member with rfl | later
      · exact request.forgets_perform evaluator environment
      · exact ih later

/-- Each request is met as if it were the first, a source that is streamed as one that is at hand,
in pieces of whatever size. -/
theorem forgets_between_requests (evaluator : Evaluator) (requests : List Request)
    (environment : ε) :
    (evaluator.history requests environment).map Exchange.request = requests ∧
      (∀ exchange ∈ evaluator.history requests environment, exchange.Forgets) ∧
      ∀ (source : Text) (options : Options) (size : Nat), 0 < size →
        (Request.streamed (.ofBytes (source.flatMap String.utf8EncodeChar) (some size) none)
          options).Supplies source :=
  ⟨evaluator.map_request_history requests environment, fun _ => forgets_of_mem_history,
    fun source options _ => Request.supplies_ofBytes source options⟩

/-- A malformed source, a stream that breaks, and a source that comes byte by byte. -/
def mixedRequests : List Request :=
  [.given "A=$H\n1=a\n".toList {},
    .streamed (.ofBytes [65, 61] none (some "no more")) {},
    .streamed (.ofBytes ("A=ä$H".toList.flatMap String.utf8EncodeChar) (some 1) none) {}]

/-- The environment in which `H` is set. -/
def startingEnvironment : MemoryEnvironment :=
  .ofList [(['H'], ['h'])]

/-- The source that comes byte by byte is evaluated as if nothing had failed before. -/
theorem forgets_between_mixedRequests :
    ∃ exchange ∈ history {} mixedRequests startingEnvironment,
      exchange.before.vars.keys = [['H']] ∧
      exchange.evaluation.observation =
        (evaluate {} "A=ä$H".toList {} exchange.before).observation := by
  obtain ⟨_, forgets, comes⟩ := forgets_between_requests {} mixedRequests startingEnvironment
  have supplies := comes "A=ä$H".toList {} 1 (by decide)
  refine ⟨(history {} mixedRequests startingEnvironment)[2], List.getElem_mem _, ?_, ?_⟩
  · decide +kernel
  · exact (forgets _ (List.getElem_mem _)).observation_eq_of_supplies _ supplies

end Evaluator
end EnvFile

import SignatureCache.Cache.Query
import SignatureCache.CommandLine.Arguments
import SignatureCache.LieElement.Text
import SignatureCache.Path.Source
import SignatureCache.Path.Table
import SignatureCache.Tree.Fingerprint

/-!
# Reports

What a command prints. Every round of a query on a real interval shows its value and what it did;
all rounds ask the same cache. At the end comes a summary of the cache. If something fails, what was
printed before stays, and the failure is told as a chain of messages from what was attempted to the
cause.
-/

namespace SignatureCache

namespace CommandLine

/-- What a command has printed and, if it failed, the messages that tell why. -/
structure Outcome where
  printed : String
  failure? : Option (List String) := none

/-- The exit status: 0 for success and 1 for failure. -/
def Outcome.status (outcome : Outcome) : Nat :=
  if outcome.failure?.isNone then 0 else 1

/-- How a failure is printed: the attempt, and its causes below. -/
def failureText : List String → String
  | [] => ""
  | [attempt] => s!"Error: {attempt}\n"
  | [attempt, cause] => s!"Error: {attempt}\n\nCaused by:\n    {cause}\n"
  | attempt :: causes =>
    s!"Error: {attempt}\n\nCaused by:\n" ++
      String.join (causes.mapIdx fun i cause => s!"    {i}: {cause}\n")

/-- The last words of a report: the size, the root and the shape of the cache, and its counters. -/
def cacheSummary (cache : IndexedCache (LieElement Float)) : String :=
  let tree := cache.store.plain.tree
  let root := (tree.root?.map DyadicInterval.text).getD "-"
  s!"cache: nodes={tree.size}\troot={root}\tfingerprint={tree.fingerprint}\n" ++
    s!"\t{cache.store.activity.report}\n"

/-- The message for the cause of a failed query. -/
def causeText : Failure → String
  | .error error => error.message
  | .fault fault => fault.message

/-- Asks for a real interval over and over and reports every round; `left` counts the rounds still
to come. -/
def rounds (source : Source (LieElement Float)) (interval : RealInterval) (resolution : Int) :
    (left round : Nat) → IndexedCache (LieElement Float) → String → Outcome
  | 0, _, cache, printed => { printed := printed ++ cacheSummary cache }
  | left + 1, round, cache, printed =>
    let before := cache.store.activity
    match cache.answer source (.real interval) resolution with
    | (.error failure, _) =>
      { printed := printed
        failure? := some [s!"query {interval.text} failed", causeText failure] }
    | (.ok value, cache) =>
      match cache.store.activity.since? before with
      | .error fault => { printed := printed, failure? := some [fault.message] }
      | .ok done =>
        rounds source interval resolution left (round + 1) cache
          (printed ++ s!"round {round}\tinterval={interval.text}\tlogsig={value.text}\n" ++
            s!"\t{done.report}\n")

/-- Reports on a real interval. -/
def reportReal (path : Path Float) (start stop : Float) (resolution : Int) (count : Nat)
    (maxResolution : Int) : Outcome :=
  match Policy.withMaxResolution? {} maxResolution with
  | .error error =>
    { printed := "", failure? := some ["invalid --max-resolution", error.message] }
  | .ok policy =>
    match RealInterval.ofEnds? start stop with
    | .error error =>
      { printed := "", failure? := some ["invalid query interval", error.message] }
    | .ok interval => rounds path.source interval resolution (max count 1) 1 { policy := policy } ""

/-- Reports on a dyadic interval. -/
def reportDyadic (path : Path Float) (interval : DyadicInterval) (resolution : Int) : Outcome :=
  match ({} : IndexedCache (LieElement Float)).answer path.source (.dyadic interval) resolution with
  | (.error failure, _) =>
    { printed := ""
      failure? := some [s!"query {interval.text} failed", causeText failure] }
  | (.ok value, cache) =>
    let accuracy := (cache.store.plain.tree.accuracy? interval).getD interval.power
    { printed :=
        s!"interval={interval.text}\taccuracy={accuracy}\tlogsig={value.text}\n" ++
          cacheSummary cache }

/-- Runs a command on the content of its file, if there is such a file. -/
def report (request : Request) (content? : Option (List UInt8)) : Outcome :=
  match Path.ofTable? content? request.input.depth with
  | .error error => { printed := "", failure? := some (error.messages request.input.file) }
  | .ok path =>
    let path := { path with exact := request.input.exact }
    match request.task with
    | .real start stop resolution count maxResolution =>
      reportReal path start stop resolution count maxResolution
    | .dyadic interval resolution => reportDyadic path interval resolution

end CommandLine

end SignatureCache

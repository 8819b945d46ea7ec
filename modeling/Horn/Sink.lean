/-
Where output goes.  A sink is asked to take texts and to pass on what it has taken;
when it refuses, how much it takes before that, and with which error, is up to it.
-/
import Horn.SystemError

namespace Horn

namespace Sink

inductive Request
  | write (text : String)
  | flush
deriving Repr, DecidableEq

/-- How many characters are taken before an error, and the error. -/
structure Refusal where
  taken : Nat
  cause : SystemError
deriving Repr, DecidableEq

def Request.text : Request → String
  | .write text => text
  | .flush => ""

/-- What is taken of a request that is refused, which is not all of it. -/
def Request.cut (request : Request) (refusal : Refusal) : String :=
  String.ofList (request.text.toList.dropLast.take refusal.taken)

/-- What comes of some requests: the text that was taken, how many of them were made,
and the error of the last one. -/
structure Receipt where
  taken : String
  requests : Nat
  refusal : Option SystemError
deriving Repr, DecidableEq

end Sink

/-- The text taken so far, and the number of requests.  What is refused may depend
on both. -/
structure Sink where
  written : String
  requests : Nat
  refuses : Nat → String → Sink.Request → Option Sink.Refusal

def lineEnds (text : String) : Nat :=
  text.toList.count '\n'

namespace Sink

/-- A sink that takes so many lines, if there is a limit, and then refuses every
text. -/
def fresh (room : Option Nat) : Sink :=
  ⟨"", 0, fun _ written request =>
    match room, request with
    | some most, .write _ => if most ≤ lineEnds written then some ⟨0, .closed⟩ else none
    | _, _ => none⟩

def put (sink : Sink) (receipt : Receipt) : Sink :=
  { sink with
    written := sink.written ++ receipt.taken
    requests := sink.requests + receipt.requests }

/-- Make requests one by one, up to the first that is refused.  To write nothing is
no request. -/
def offer (sink : Sink) : List Request → Receipt
  | [] => ⟨"", 0, none⟩
  | request :: rest =>
      if request = .write "" then sink.offer rest
      else match sink.refuses sink.requests sink.written request with
        | some refusal => ⟨request.cut refusal, 1, some refusal.cause⟩
        | none =>
            let more := (sink.put ⟨request.text, 1, none⟩).offer rest
            ⟨request.text ++ more.taken, more.requests + 1, more.refusal⟩

/-- Of what is offered a sink takes the start, and all of it unless it gives an
error. -/
theorem taken_offer (sink : Sink) (requests : List Request) :
    ∃ left, (sink.offer requests).taken.toList ++ left =
        requests.flatMap (fun request => request.text.toList) ∧
      ((sink.offer requests).refusal = none → left = []) := by
  induction requests generalizing sink with
  | nil => exact ⟨[], rfl, fun _ => rfl⟩
  | cons request rest ih =>
      rw [List.flatMap_cons, offer]
      split
      · next hempty =>
          subst hempty
          exact ih sink
      · split
        · next refusal _ =>
            -- The text is cut before its last character.
            have hcut : (request.cut refusal).toList <+: request.text.toList := by
              rw [Request.cut, String.toList_ofList]
              exact (List.take_prefix _ _).trans (List.dropLast_prefix _)
            obtain ⟨left, hleft⟩ := hcut
            exact ⟨left ++ rest.flatMap fun request => request.text.toList,
              by rw [← List.append_assoc, hleft], fun hnone => by cases hnone⟩
        · obtain ⟨left, hleft, hall⟩ := ih (sink.put ⟨request.text, 1, none⟩)
          refine ⟨left, ?_, hall⟩
          rw [String.toList_append, List.append_assoc, hleft]

end Sink

/-- A line that is cut by a full disk, and one that cannot be passed on. -/
example :
    (Sink.mk "" 0 fun _ _ _ => some ⟨2, .noSpace⟩).offer [.write "f(a)", .write "\n", .flush] =
        ⟨"f(", 1, some .noSpace⟩ ∧
      (Sink.mk "" 0 fun _ _ request => if request = .flush then some ⟨0, .closed⟩ else none).offer
        [.write "f(a)", .write "\n", .flush] = ⟨"f(a)\n", 3, some .closed⟩ := by
  decide

end Horn

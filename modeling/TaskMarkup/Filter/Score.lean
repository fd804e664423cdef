import TaskMarkup.Text.Lowercase

namespace TaskMarkup

/-- The score of a needle behind a run of `streak` matches. Each character is looked for at its
first place; one that stands right behind the last goes on with the run.

The sum has no bound here. A run of `n` matches is worth `n * (n + 1) / 2`, so a score fits into 63
bits for every needle of fewer than `2 ^ 32` characters. Beyond that a sum in a signed 64-bit integer
overflows, and is no longer this one. -/
def greedyScore (streak : Nat) : (needle text : List Char) → Option Nat
  | [], _ => some 0
  | c :: needle, text =>
    match text.dropWhile (· ≠ c) with
    | [] => none
    | _ :: rest =>
      let streak := if text.head? = some c then streak + 1 else 1
      (greedyScore streak needle rest).map (streak + ·)

def scoreWith (fold : Char → List Char) (needle text : List Char) : Option Nat :=
  greedyScore 0 (needle.flatMap fold) (text.flatMap fold)

def score (needle text : String) : Option Nat :=
  scoreWith Text.lowerChar needle.toList text.toList

end TaskMarkup

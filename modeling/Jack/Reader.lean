import Jack.Scanner

/-!
# Reading with one token of lookahead

A reader always holds the token it stands at. Discarding that token decodes the next one first, so
a failure shows one token early and leaves the token held as it was (`current_discard_of_error`).
-/

namespace Jack

structure Reader where
  scanner : Scanner
  /-- The token held; none at the end of the source. -/
  current : Option Token

namespace Reader

/-- Starts reading, and fails if the first token does. -/
def open? (source : Source) : Except ScanError Reader :=
  match (Scanner.ofSource source).next with
  | (.ok current, scanner) => .ok { scanner, current }
  | (.error e, _) => .error e

def hasToken (r : Reader) : Bool := r.current.isSome

/-- Discards the token held, and answers it. -/
def discard (r : Reader) : Except ScanError (Option Token) × Reader :=
  match r.scanner.next with
  | (.ok current, scanner) => (.ok r.current, { scanner, current })
  | (.error e, scanner) => (.error e, { r with scanner })

theorem current_discard_of_error {r r' : Reader} {e : ScanError}
    (h : r.discard = (.error e, r')) : r'.current = r.current := by
  simp only [discard] at h
  split at h <;> simp only [Prod.mk.injEq, reduceCtorEq, false_and] at h
  rw [← h.2]

end Reader

end Jack

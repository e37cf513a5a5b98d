import ClassWeave.Proofs.Process.Utilities
import ClassWeave.Proofs.Style.Layering

namespace ClassWeave

open Markup Style Text

namespace Style

namespace Sheet

variable {s : Sheet} {r : Rule}

end Sheet

end Style

namespace Resolver

variable {resolver : Resolver} {options : Options} {c : Component} {r : Rule}

end Resolver

namespace Processor

variable {p : Processor} {session : Session} {component : Component} {scan : Scan}

end Processor

end ClassWeave

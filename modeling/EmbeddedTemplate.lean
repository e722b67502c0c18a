import EmbeddedTemplate.Code.Printer
import EmbeddedTemplate.Proofs.Template.Balance
import EmbeddedTemplate.Proofs.Template.Leaks
import EmbeddedTemplate.Proofs.Template.Assigns
import EmbeddedTemplate.Proofs.Template.Rewriting
import EmbeddedTemplate.Proofs.Code.Completeness
import EmbeddedTemplate.Proofs.Code.Parsing
import EmbeddedTemplate.Proofs.Code.Spelling
import EmbeddedTemplate.Proofs.Code.Quoting
import EmbeddedTemplate.Proofs.Code.Rereading
import EmbeddedTemplate.Proofs.Code.Printing
import EmbeddedTemplate.Proofs.Code.RoundTrip
import EmbeddedTemplate.Proofs.Code.Operations
import EmbeddedTemplate.Proofs.Code.Strings
import EmbeddedTemplate.Proofs.Code.Blockless
import EmbeddedTemplate.Proofs.Code.Determinism
import EmbeddedTemplate.Proofs.Code.Derivations
import EmbeddedTemplate.Proofs.Template.Writing
import EmbeddedTemplate.Proofs.Template.Located
import EmbeddedTemplate.Proofs.Code.Offset
import EmbeddedTemplate.Proofs.Template.Texts
import EmbeddedTemplate.Proofs.Template.Offset
import EmbeddedTemplate.Proofs.Template.Appending
import EmbeddedTemplate.Proofs.Template.Trimming
import EmbeddedTemplate.Proofs.Template.Reserved
import EmbeddedTemplate.Proofs.Template.Fusing
import EmbeddedTemplate.Proofs.Template.Padding
import EmbeddedTemplate.Proofs.Code.Ends
import EmbeddedTemplate.Proofs.Code.Names
import EmbeddedTemplate.Proofs.Template.Folding
import EmbeddedTemplate.Proofs.Template.Expansion

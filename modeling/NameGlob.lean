import NameGlob.Main
import NameGlob.Pattern.Language
import NameGlob.Proofs.Case.Insensitive
import NameGlob.Proofs.Case.Preservation
import NameGlob.Proofs.Interval.Canonical
import NameGlob.Proofs.Pattern.Parsing
import NameGlob.Proofs.Rendering.RegexMatching
import NameGlob.Proofs.Text.RoundTrip
import NameGlob.Tool.FileTree
import NameGlob.Proofs.Pattern.Characters
import NameGlob.Proofs.Rendering.RegexReading
import NameGlob.Proofs.Glob.Agreement
import NameGlob.Proofs.Case.Independence
import NameGlob.Proofs.Filter.History
import NameGlob.Proofs.Lines.Pieces
import NameGlob.Proofs.Tool.Session
import NameGlob.Proofs.Tool.Selection
import NameGlob.Proofs.Text.Ascii
import NameGlob.Proofs.Lines.Calls
import NameGlob.Proofs.Tool.Nesting
import NameGlob.Proofs.Pattern.Quoting
import NameGlob.Proofs.Pattern.Escaping
import NameGlob.Proofs.Pattern.Wildcards
import NameGlob.Proofs.Pattern.Unescaping
import NameGlob.Proofs.Rendering.WqlMatching
import NameGlob.Proofs.Interval.Extensionality
import NameGlob.Proofs.Rendering.DosMatching
import NameGlob.Proofs.Pattern.Concatenation
import NameGlob.Proofs.Rendering.RegexLists
import NameGlob.Proofs.Pattern.Excerpt
import NameGlob.Proofs.Tool.Arguments
import NameGlob.Proofs.Tool.Operands
import NameGlob.Proofs.Tool.Ahead
import NameGlob.Proofs.Tool.ConfigLines
import NameGlob.Proofs.Tool.Spellings
import NameGlob.Proofs.Tool.Refusals
import NameGlob.Proofs.Tool.Faults
import NameGlob.Proofs.Tool.SelectedLines
import NameGlob.Proofs.Automaton.Work
import NameGlob.Proofs.Automaton.Access
import NameGlob.Proofs.Case.Counterparts

import Hcc.Literal.Theorems.Constant
import Hcc.Lower.Theorems.Integer
import Hcc.Lexer.Theorems.Positions
import Hcc.Lexer.Theorems.Masks
import Hcc.Lexer.Theorems.Spelling
import Hcc.Driver.Theorems.Render
import Hcc.Preprocessor.Theorems.Termination
import Hcc.Ir.Text
import Hcc.M1.Theorems.RoundTrip
import Hcc.SymbolTable.Theorems.Lookup
import Hcc.SymbolTable.Theorems.Balance
import Hcc.Lower.Theorems.Function
import Hcc.ConstExpr.Theorems.Termination
import Hcc.Preprocessor.Conditional
import Hcc.Preprocessor.Theorems.Provenance
import Hcc.Preprocessor.Theorems.Groups
import Hcc.M1.Theorems.Frame
import Hcc.Parser.Theorems.Program
import Hcc.Parser.Theorems.Printing
import Hcc.Lower.Theorems.Designator
import Hcc.Lower.Theorems.Scope
import Hcc.Lower.Theorems.Items
import Hcc.M1.Theorems.Allocation
import Hcc.M1.Theorems.Arithmetic
import Hcc.Lower.Theorems.Character
import Hcc.Lower.Theorems.Implicit
import Hcc.Lower.Theorems.Storage
import Hcc.Ir.Theorems.Renaming
import Hcc.Lower.Theorems.Ready.Objects
import Hcc.Lower.Theorems.Shift.Expression
import Hcc.Parser.Theorems.Strings
import Hcc.Parser.Theorems.Labels
import Hcc.Driver.Theorems.Output
import Hcc.Driver.Theorems.Splice
import Hcc.Driver.Theorems.Stringify
import Hcc.Driver.Theorems.Strip
import Hcc.Strtod.Theorems.Agreement
import Hcc.Literal.Theorems.Division
import Hcc.Literal.Theorems.Bits
import Hcc.M1.Theorems.Immediate
import Hcc.Support.Theorems.Sort
import Hcc.Support.Theorems.Streams
import Hcc.Support.Theorems.Format
import Hcc.Support.Theorems.Materialize
import Hcc.Lower.Theorems.Enumerators
import Hcc.Support.Theorems.Strings
import Hcc.Driver.Theorems.Include
import Hcc.Lower.Theorems.Copies
import Hcc.Lower.Theorems.Meaning.Dispatch
import Hcc.Lower.Theorems.Members

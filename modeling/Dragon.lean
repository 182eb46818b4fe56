import Dragon.Ast
import Dragon.Codegen.Allocation
import Dragon.Codegen.Analysis
import Dragon.Codegen.Arithmetic
import Dragon.Codegen.Balance
import Dragon.Codegen.Bindings
import Dragon.Codegen.CallFrames
import Dragon.Codegen.Calls
import Dragon.Codegen.Captures
import Dragon.Codegen.Comparison
import Dragon.Codegen.Conditions
import Dragon.Codegen.Context
import Dragon.Codegen.Core
import Dragon.Codegen.Declarations
import Dragon.Codegen.Display
import Dragon.Codegen.Division
import Dragon.Codegen.Elements
import Dragon.Codegen.Entry
import Dragon.Codegen.Failures
import Dragon.Codegen.FormalCells
import Dragon.Codegen.Frame
import Dragon.Codegen.Globals
import Dragon.Codegen.InputOutput
import Dragon.Codegen.Instruction
import Dragon.Codegen.Labels
import Dragon.Codegen.Lines
import Dragon.Codegen.Literals
import Dragon.Codegen.Loads
import Dragon.Codegen.Locality
import Dragon.Codegen.Loops
import Dragon.Codegen.Lvalues
import Dragon.Codegen.Operands
import Dragon.Codegen.Output
import Dragon.Codegen.Parameters
import Dragon.Codegen.Preservation
import Dragon.Codegen.Printing
import Dragon.Codegen.Procedures
import Dragon.Codegen.Records
import Dragon.Codegen.Registers
import Dragon.Codegen.Reports
import Dragon.Codegen.Reservation
import Dragon.Codegen.Results
import Dragon.Codegen.Runs
import Dragon.Codegen.Scoping
import Dragon.Codegen.Sizes
import Dragon.Codegen.Statements
import Dragon.Codegen.Stores
import Dragon.Codegen.Subprograms
import Dragon.Codegen.Tables
import Dragon.Codegen.Trace
import Dragon.Codegen.Unary
import Dragon.Codegen.Verdicts
import Dragon.Codegen.Visits
import Dragon.Dump.Declarations
import Dragon.Dump.Expressions
import Dragon.Dump.Printer
import Dragon.Dump.Programs
import Dragon.Dump.Statements
import Dragon.Dump.Tokens
import Dragon.Lexer.Comments
import Dragon.Lexer.Locations
import Dragon.Lexer.Rendering
import Dragon.Lexer.Rules
import Dragon.Library.Layout
import Dragon.Library.LinkedList
import Dragon.Library.Listing
import Dragon.Library.Memory
import Dragon.Library.Ownership
import Dragon.Library.Pattern
import Dragon.Library.Positions
import Dragon.Library.PtrVec
import Dragon.Library.Reader
import Dragon.Library.Scanner
import Dragon.Library.Spans
import Dragon.Library.Steps
import Dragon.Library.Structured
import Dragon.Machine.Balance
import Dragon.Machine.Brackets
import Dragon.Machine.Execution
import Dragon.Machine.Output
import Dragon.Machine.Stack
import Dragon.Machine.State
import Dragon.Memory.Destructors
import Dragon.Memory.Events
import Dragon.Memory.Ledger
import Dragon.Memory.Lifetime
import Dragon.Memory.Mirrors
import Dragon.Parser.Arguments
import Dragon.Parser.Blocks
import Dragon.Parser.Declarations
import Dragon.Parser.Descent
import Dragon.Parser.Grammar
import Dragon.Parser.Program
import Dragon.Parser.Reading
import Dragon.Parser.Shape
import Dragon.Parser.Statements
import Dragon.Parser.Text
import Dragon.Parser.Writing
import Dragon.Runtime.Linked
import Dragon.Runtime.Routines
import Dragon.Source.Arithmetic
import Dragon.Source.Core
import Dragon.Source.Output
import Dragon.Symbol.Chain
import Dragon.Symbol.Comparison
import Dragon.Symbol.Dangling
import Dragon.Symbol.Layout
import Dragon.Symbol.Locals
import Dragon.Symbol.Scopes
import Dragon.Symbol.Slots
import Dragon.Symbol.Steps
import Dragon.Symbol.Table
import Dragon.Symbol.Usable
import Dragon.Util.FiniteMap
import Dragon.Util.HashTable
import Dragon.Util.Hashing
import Dragon.Util.List
import Dragon.Util.Traversal
import Dragon.Util.Vector

import LogicCompiler.Lexer.Tiling
import LogicCompiler.Preproc.BranchStack
import LogicCompiler.Preproc.Conditionals
import LogicCompiler.Preproc.SkipAgreement
import LogicCompiler.Parser.Constituents
import LogicCompiler.Parser.Determined
import LogicCompiler.Parser.Halting
import LogicCompiler.Preproc.Nesting
import LogicCompiler.Codegen.Compiler
import LogicCompiler.AST.Dump
import LogicCompiler.Codegen.Jumps
import LogicCompiler.Codegen.Walk
import LogicCompiler.Lexer.Relexing
import LogicCompiler.Library.Chains
import LogicCompiler.Preproc.Progress
import LogicCompiler.Library.Strip
import LogicCompiler.Preproc.Conditions
import LogicCompiler.Library.Stacks
import LogicCompiler.Preproc.Halting
import LogicCompiler.Preproc.Points
import LogicCompiler.File.Layout
import LogicCompiler.Typer.Arena
import LogicCompiler.Codegen.Placement
import LogicCompiler.Codegen.Signatures
import LogicCompiler.Lexer.Opacity
import LogicCompiler.Codegen.Literals
import LogicCompiler.Preproc.Guards
import LogicCompiler.Parser.Assignment
import LogicCompiler.Parser.Declarations
import LogicCompiler.Parser.BraceFree
import LogicCompiler.Common.Keywords
import LogicCompiler.Preproc.MacroNames
import LogicCompiler.Typer.TypeFlags
import LogicCompiler.Typer.TypeList
import LogicCompiler.File.Newlines
import LogicCompiler.File.Lookup
import LogicCompiler.AST.Files
import LogicCompiler.Codegen.Assignments
import LogicCompiler.Codegen.Constants
import LogicCompiler.Parser.SourceTracking
import LogicCompiler.Preproc.MacroTable
import LogicCompiler.Preproc.Snippets
import LogicCompiler.Preproc.Segmentation
import LogicCompiler.Library.Graphs
import LogicCompiler.Codegen.Visits
import LogicCompiler.Parser.Slots
import LogicCompiler.Codegen.Recursion
import LogicCompiler.Codegen.Names
import LogicCompiler.Codegen.ControlFlow
import LogicCompiler.Parser.Recognition
import LogicCompiler.Parser.Layout
import LogicCompiler.Codegen.Layout
import LogicCompiler.Library.Tracing
import LogicCompiler.Codegen.Meaning

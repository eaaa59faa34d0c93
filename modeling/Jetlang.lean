import Jetlang.Mem.Heap
import Jetlang.Mem.Block
import Jetlang.Lib.Growth
import Jetlang.Lib.Regions
import Jetlang.Lib.Chains
import Jetlang.Lib.LongRuns
import Jetlang.Lib.Interner
import Jetlang.Lib.PrefixFree
import Jetlang.Lib.Julia
import Jetlang.Lib.Decimal
import Jetlang.Lib.Lines
import Jetlang.Lib.Outline
import Jetlang.Sym.Judy
import Jetlang.Sym.Walk
import Jetlang.Sym.Push
import Jetlang.Sym.Interning
import Jetlang.Sym.Runs
import Jetlang.Sym.Slices
import Jetlang.Sym.Shape
import Jetlang.Sym.Csymbol
import Jetlang.Ast.Ast
import Jetlang.Ast.Builder
import Jetlang.Ast.Tostring
import Jetlang.Ast.Print
import Jetlang.Pcc.Runtime
import Jetlang.Pcc.Observe
import Jetlang.Pcc.Tokens
import Jetlang.Pcc.Grammar
import Jetlang.Pcc.Syntax
import Jetlang.Pcc.Reading
import Jetlang.Pcc.Building
import Jetlang.Pcc.Overlong
import Jetlang.Pcc.Rules
import Jetlang.Pcc.Packrat
import Jetlang.Pcc.Program
import Jetlang.Pcc.Loose
import Jetlang.Pcc.Layouts
import Jetlang.Pcc.Language
import Jetlang.Pcc.Printing
import Jetlang.Cst.Atoms
import Jetlang.Cst.Exprs
import Jetlang.Cst.Flip
import Jetlang.Str.Str
import Jetlang.Pcc2.Grammar
import Jetlang.Pcc2.Atoms
import Jetlang.Pcc2.Words
import Jetlang.Pcc2.Literals
import Jetlang.Ins.AtoiU
import Jetlang.Ins.AtoiV
import Jetlang.Qbe.Execute
import Jetlang.Qbe.Value
import Jetlang.Lr.RuleSet
import Jetlang.Lr.Table
import Jetlang.Lr.Context
import Jetlang.Lr.Apply
import Jetlang.Lr.Meaning
import Jetlang.Lr.WellFormed
import Jetlang.Lr.Yields
import Jetlang.Lr.Memo
import Jetlang.Lr.Mirror
import Jetlang.Lr.Refine
import Jetlang.Lr.Parse
import Jetlang.Lr.Session
import Jetlang.Lr.Sound
import Jetlang.Lr.Safety
import Jetlang.Lr.Pending
import Jetlang.Lr.Growing
import Jetlang.Lr.Total
import Jetlang.Lr.Invariant
import Jetlang.Lr.Ledger
import Jetlang.Pools.Recycler
import Jetlang.Pools.Sound
import Jetlang.Pools.Supply
import Jetlang.Pools.Runs

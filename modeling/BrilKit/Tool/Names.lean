import BrilKit.Tool.Basic

/-!
# The names of the tools
-/

namespace BrilKit

namespace Tool

def simplify (style : Ssa.Style) (scope : ValueNumbering.Scope) : List Pass :=
  [.version style, .numberVersioned scope style.graph, .prune style.graph, .renumber]

def named : List (String × Tool) :=
  [ ("parse", .parse), ("print", .print), ("blocks", .listBlocks), ("numbered", .listNumbered),
    ("graph", .listGraph), ("labelled", .listLabelled .labelled),
    ("looping", .listLabelled .looping), ("draw", .draw), ("analyse", .analyse), ("dominance", .listDominance),
    ("is-ssa", .checkSsa),
    ("to-ssa", .transform [.enterSsa] true), ("from-ssa", .transform [.leaveSsa] true),
    ("lvn", .numberLocal), ("dce", .dropDead), ("infer", .inferTypes), ("normalize", .normalize),
    ("llvm", .emit), ("drop-nops", .transform [.dropNops] false),
    ("sweep", .transform [.sweepAll] false), ("number", .transform [.numberTracked] false),
    ("constants", .transform [.propagateConstants, .pruneFromExits] false),
    ("versions", .transform (simplify .direct .wide) false),
    ("versions-memory", .transform (simplify .iterative .pure) false),
    ("drop-versions", .transform [.dropVersions] false), ("hoist", .transform [.hoist] false),
    ("drop-stores", .transform [.dropDeadStores] false) ]

def ofName? (name : String) : Option Tool := named.lookup name

end Tool

end BrilKit

/-
  The decoder of call counts (`funcount2sym/src/main.rs`): the addresses of a report
  become the symbols that they belong to.
-/
import Funtrace.Viz.ProcAddr2Sym
import Funtrace.Runtime.Funcount

namespace Funtrace

/-- A line that is printed. -/
structure CountLine where
  count : UInt64
  address : UInt64
  syminfo : SymInfo

namespace Funcount2Sym
variable (w : World)

/-- The loop over the lines of COUNTS. -/
def countLines : ProcAddr2Sym → List (UInt64 × UInt64) → Option (List CountLine)
  | _, [] => some []
  | p, (address, count) :: rest =>
    let (syminfo, p) := p.procAddr2Sym w address
    if p.panicked then none
    else (countLines p rest).map (⟨count, address, syminfo⟩ :: ·)

/-- From the text of the maps in `funcount.txt` and its counts.  `none` stands for a panic. -/
def main (procMapsData : List UInt8) (report : Funcount.Report) : Option (List CountLine) :=
  (ProcAddr2Sym.new.setProcMaps w procMapsData).bind fun p => countLines w p report.counts

end Funcount2Sym

end Funtrace

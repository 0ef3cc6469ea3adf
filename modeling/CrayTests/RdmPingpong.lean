import CrayTests.RdmOneSided

/-!
# `rdm_pingpong`

`main` of `rdm_pingpong` from the loop over `init_per_thread_data` on. The program is `rdm_one_sided`
without the registered buffers and the exchange of their keys, with fewer sizes and with one more
barrier in front of the last loop.
-/

namespace CrayTests.RdmPingpong
open RankProgram RdmOneSided

variable (E : Setup)

/-- With the same `alloc_ep_res`, `bind_ep_res` and `free_ep_res`. -/
def initEndpoint (i : ℕ) : Job ℤ := RdmOneSided.initEndpoint i

def initAv (rank : Fin 2) (i : ℕ) : Job ℤ := RdmOneSided.initAv E rank i

def initPerThreadData (rank : Fin 2) (i : ℕ) : Job ℤ := do
  let ret ← initEndpoint i
  if ret ≠ 0 then pure ret
  else
    let ret ← initAv E rank i
    if ret ≠ 0 then pure ret
    else
      .op (Op.setBufs i) .pure
      pure 0

/-- `l_mr` and `r_mr` are tested here too, though nothing is registered. -/
def finiPerThreadData (i : ℕ) : Job Unit := RdmOneSided.finiPerThreadData i

def measure (size : ℕ) : Job Unit := RdmOneSided.measure E size

def numSizes : ℕ := 14

def main (rank : Fin 2) : Job Unit := do
  Program.loop (fun i _ => do
    let _ ← initPerThreadData E rank i
    pure ()) 0 E.threads ()
  Program.loop (fun k _ => measure E (2 ^ k)) 0 numSizes ()
  ctpmBarrier .last
  Program.loop (fun i _ => finiPerThreadData i) 0 E.threads ()
  fiClose .dom
  fiClose .fab
  ctpmBarrier .last

end CrayTests.RdmPingpong

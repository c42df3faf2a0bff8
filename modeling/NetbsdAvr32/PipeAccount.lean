import NetbsdAvr32.PipeStream
import NetbsdAvr32.CallLog

-- The bytes in the stream, write by write.
namespace NetbsdAvr32.Pipe
open RingBuffer CallLog List
variable {T : Type} [DecidableEq T]

def Pc.pending : Pc → Option (Nat × List Byte)
  | .writeEnter w => some (w.call,uioData w.uio)
  | .writeWait w => some (w.call,uioData w.uio)
  | .writeQuit w => some (w.call,uioData w.uio)
  | .writeCopy w _ _ => some (w.call,uioData w.uio)
  | .writeCopied w _ _ => some (w.call,uioData w.uio)
  | .directSetup w => some (w.call,uioData w.uio)
  | .directLoan w => some (w.call,uioData w.uio)
  | .directFallback w => some (w.call,uioData w.uio)
  | .directPublish w _ => some (w.call,uioData w.uio)
  | .directDrain w n => some (w.call,(uioData w.uio).drop n)
  | .directOffer w n => some (w.call,(uioData w.uio).drop n)
  | .directRelock w n _ => some (w.call,(uioData w.uio).drop n)
  | .directCleanup w n _ => some (w.call,(uioData w.uio).drop n)
  | .directFinish w n _ => some (w.call,(uioData w.uio).drop n)
  | _ => none

def Pipe.calls (s : Pipe T) : Calls T Byte := ⟨s.asked,s.writers,s.sent,s.accepted,fun t => (s.pc t).pending⟩

variable {s s' : Pipe T} {t : T} {h d : Option T} {p q : Pc} {r : Read} {w : Write} {n : Nat}

def Runs : Pipe T → Pipe T → Prop := Relation.ReflTransGen fun s s' => ∃ t,Step s t s'

-- What the reads returned starts what the writes put in: the rest is with a reader, in the ring, and last in the window.
structure Carries (s : Pipe T) : Prop where
  fifo : s.returned.flatten <+: s.sent.map Prod.snd
  between : s.sent.map Prod.snd = s.taken ++ s.ring.contents ++ s.store.offered
  accounted : Accounted PIPE_BUF s.asked s.writers s.sent s.accepted
  fits : s.ring.cnt ≤ s.ring.size
  ends : s.ring.in_ = (s.ring.out + s.ring.cnt) % s.ring.size
  fine : ∀ t,(s.pc t).panics = false

theorem Stream.carries (stream : Stream s h d) (wf : Wf PIPE_BUF s.calls) : Carries s where
  fifo := by
    rw [stream.flow.2,stream.back,append_assoc,append_assoc]
    exact prefix_append ..
  between := stream.flow.2
  accounted := wf.books
  fits := stream.flow.1.fits
  ends := stream.flow.1.ends
  fine := stream.conf.fine

theorem Runs.then (run : Runs s s') {s'' : Pipe T} (step : Step s' t s'') : Runs s s'' := Relation.ReflTransGen.tail run ⟨t,step⟩

end NetbsdAvr32.Pipe

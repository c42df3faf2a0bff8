import NetbsdAvr32.PipeWindow

-- Runs without signals and faults: what goes into the pipe comes out of it in the same order.
namespace NetbsdAvr32.Pipe
open RingBuffer List Bool Function
variable {T : Type} [DecidableEq T]

structure Store (T : Type) where
  ring : RingBuffer.Ring Byte
  map : Mapping T
  window : Nat → Byte
  directw : Bool
  directr : Bool

def Pipe.store (s : Pipe T) : Store T := ⟨s.ring,s.map,s.window,s.directw,s.directr⟩

-- What the code remembers across a release of pipe_lock. Without signals nobody waits in the two places a signal leads to.
def Knows (v : Store T) : Pc → Prop
  | .readWait r => r.got = []
  | .readCopy _ size => 0 < size ∧ size ≤ v.ring.cnt ∧ v.ring.out + size ≤ v.ring.size
  | .readCopied _ bytes => 0 < bytes.length ∧ bytes.length ≤ v.ring.cnt ∧ v.ring.out + bytes.length ≤ v.ring.size ∧
      bytes = v.ring.contents.take bytes.length
  | .readDirect _ size va => va = v.map.pos ∧ size ≤ v.map.cnt ∧ v.directr = true ∧ v.directw = true
  | .readDirected _ bytes => bytes = slice v.window v.map.pos bytes.length ∧ bytes.length ≤ v.map.cnt ∧ v.directr = true ∧ v.directw = true
  | .writeCopy w size segsize => v.directw = false ∧ v.ring.cnt + size ≤ v.ring.size ∧ size ≤ uio_resid w.uio ∧
      segsize = min (v.ring.size - v.ring.in_) size ∧ (uio_resid w.uio ≤ PIPE_BUF → size = uio_resid w.uio)
  | .writeCopied w size segsize => v.directw = false ∧ v.ring.cnt + size ≤ v.ring.size ∧ size ≤ uio_resid w.uio ∧
      segsize = min (v.ring.size - v.ring.in_) size ∧ (uio_resid w.uio ≤ PIPE_BUF → size = uio_resid w.uio) ∧
      ∀ i,(low : i < ((uioData w.uio).take size).length) → v.ring.buffer ((v.ring.in_ + i) % v.ring.size) = ((uioData w.uio).take size)[i]
  | .directSetup w => PIPE_MINDIRECT ≤ iov_len w.uio
  | .directLoan w => PIPE_MINDIRECT ≤ iov_len w.uio
  | .directFallback _ => v.directw = false
  | .directPublish w n => PIPE_MINDIRECT ≤ iov_len w.uio ∧ n ≤ iov_len w.uio ∧ v.map.cnt = n ∧ slice v.window v.map.pos n = (uioData w.uio).take n
  | .directDrain w n => n ≤ iov_len w.uio ∧ PIPE_MINDIRECT ≤ iov_len w.uio
  | .directOffer w n => n ≤ iov_len w.uio ∧ PIPE_MINDIRECT ≤ iov_len w.uio ∧ v.ring.cnt = 0 ∧ (v.directr = true ∨ v.map.cnt = 0)
  | .directCleanup w n error => n ≤ iov_len w.uio ∧ PIPE_MINDIRECT ≤ iov_len w.uio ∧ v.map.cnt = 0 ∧ error = false
  | .directFinish w n error => n ≤ iov_len w.uio ∧ PIPE_MINDIRECT ≤ iov_len w.uio ∧ v.map.cnt = 0 ∧ error = false
  | .directRelock .. => False
  | .writeQuit _ => False
  | _ => True

def Pc.gotten : Pc → List Byte
  | .readCopy r _ => r.got
  | .readCopied r _ => r.got
  | .readDirect r _ _ => r.got
  | .readDirected r _ => r.got
  | _ => []

def gotten (s : Pipe T) : Option T → List Byte
  | none => []
  | some t => (s.pc t).gotten

def Store.offered (v : Store T) : List Byte := if v.directw then slice v.window v.map.pos v.map.cnt else []

-- Everything that was sent, in order: taken, then the ring, then the window.
def Flow (v : Store T) (sent : List (Nat × Byte)) (taken : List Byte) : Prop :=
  v.ring.Wf ∧ sent.map Prod.snd = taken ++ v.ring.contents ++ v.offered

structure Stream (s : Pipe T) (holder director : Option T) : Prop where
  conf : Conf s.core holder director
  knows : ∀ t,Knows s.store (s.pc t)
  flow : Flow s.store s.sent s.taken
  back : s.taken = s.returned.flatten ++ gotten s holder

structure Amid (s : Pipe T) (t : T) (director : Option T) (got : List Byte) : Prop where
  mid : Mid s.core t director
  knows : ∀ u,u ≠ t → Knows s.store (s.pc u)
  flow : Flow s.store s.sent s.taken
  back : s.taken = s.returned.flatten ++ got

variable {s : Pipe T} {v v' : Store T} {t u : T} {h d : Option T} {p : Pc} {r : Read} {w : Write} {n : Nat} {got : List Byte}

theorem Knows.outside (knows : Knows v p) (holds : p.holds = false) (outside : p.direct = false) : Knows v' p := by
  cases p <;> first | exact trivial | exact knows | (cases holds; done) | (cases outside; done)

theorem Knows.waiting (knows : Knows v p) (holds : p.holds = false) (ring : v.ring.cnt = 0 → v'.ring.cnt = 0)
    (offer : v.directr = true ∨ v.map.cnt = 0 → v'.directr = true ∨ v'.map.cnt = 0) : Knows v' p := by
  cases p with
  | directOffer w n => exact ⟨knows.1,knows.2.1,ring knows.2.2.1,offer knows.2.2.2⟩
  | directDrain w n => exact knows
  | directRelock | writeQuit => exact knows
  | readCopy | readCopied | readDirect | readDirected | writeCopy | writeCopied | directSetup | directLoan | directFallback | directPublish |
    directCleanup | directFinish => cases holds
  | readWait => exact knows
  | _ => exact trivial

theorem goto_self (s : Pipe T) (t : T) (p : Pc) : (s.goto t p).pc t = p := update_self ..
theorem goto_other (s : Pipe T) (p : Pc) (ne : u ≠ t) : (s.goto t p).pc u = s.pc u := update_of_ne ne ..

theorem Amid.keep (amid : Amid s t d got) (holds : p.holds = true) (outside : p.direct = false) (fine : p.panics = false)
    (reads : ∀ n,p.reads = some n → ∃ u,d = some u ∧ (s.pc u).given = true ∧ n ≤ s.map.cnt) (knows : Knows s.store p) (same : p.gotten = got) :
    Stream (s.goto t p) (some t) d where
  conf := amid.mid.keep holds outside fine reads
  knows u := by
    by_cases here : u = t
    · rw [here,goto_self]
      exact knows
    rw [goto_other s p here]
    exact amid.knows u here
  flow := amid.flow
  back := by
    show s.taken = s.returned.flatten ++ ((s.goto t p).pc t).gotten
    rw [goto_self,same]
    exact amid.back

theorem Amid.free (amid : Amid s t d []) (holds : p.holds = false) (outside : p.direct = false) (fine : p.panics = false) (knows : Knows s.store p) :
    Stream (s.unlock.goto t p) none d where
  conf := amid.mid.free holds outside fine
  knows u := by
    by_cases here : u = t
    · rw [here,goto_self]
      exact knows
    rw [goto_other _ p here]
    exact amid.knows u here
  flow := amid.flow
  back := amid.back

variable {q : Pc} {bytes : List Byte}

theorem Stream.acquire (stream : Stream s h d) (at_ : s.pc t = q) (free : s.lockfl = false) (outside : q.direct = false) : Amid s.lock t d [] where
  mid := stream.conf.acquire at_ free outside
  knows u _ := stream.knows u
  flow := stream.flow
  back := by
    have none_ : h = none := by
      have lock : s.lockfl = h.isSome := stream.conf.lock
      rw [free] at lock
      exact Option.not_isSome_iff_eq_none.mp (by rw [← lock]; exact false_ne_true)
    have back := stream.back
    rw [none_] at back
    exact back

theorem Stream.go_on (stream : Stream s h d) (at_ : s.pc t = q) (holds : q.holds = true) (outside : q.direct = false) :
    Amid s t d q.gotten where
  mid := stream.conf.go_on at_ holds outside
  knows u _ := stream.knows u
  flow := stream.flow
  back := by
    have holder : h = some t := stream.conf.holder_of ((congrArg Pc.holds at_).trans holds)
    have back := stream.back
    rw [holder,show gotten s (some t) = (s.pc t).gotten from rfl,at_] at back
    exact back

theorem Amid.take (amid : Amid s t d got) (knows : Knows s.store (.readCopied r bytes)) :
    Amid { s with ring := s.ring.drop bytes.length, taken := s.taken ++ bytes } t d (got ++ bytes) where
  mid := amid.mid
  knows u ne := by
    refine (amid.knows u ne).waiting (amid.mid.alone u ne) (fun empty => ?_) id
    have empty : s.ring.cnt = 0 := empty
    unfold RingBuffer.Ring.drop
    split
    · rfl
    · omega
  flow := by
    obtain ⟨-,few,flat,here⟩ := knows
    obtain ⟨wf,flow⟩ := amid.flow
    refine ⟨wf.drop flat,?_⟩
    show s.sent.map Prod.snd = s.taken ++ bytes ++ (s.ring.drop bytes.length).contents ++ s.store.offered
    have whole : s.ring.contents = bytes ++ (s.ring.drop bytes.length).contents := by
      have here : bytes = s.ring.contents.take bytes.length := here
      calc s.ring.contents
        _ = s.ring.contents.take bytes.length ++ s.ring.contents.drop bytes.length := (take_append_drop ..).symm
        _ = bytes ++ (s.ring.drop bytes.length).contents := by rw [← here,drop_contents (r := s.ring) flat]
    rw [flow,show s.store.ring.contents = _ from whole,← append_assoc]
  back := by
    rw [amid.back,append_assoc]

theorem take_length (few : n ≤ uio_resid w.uio) : ((uioData w.uio).take n).length = n := by
  rw [length_take]
  exact Nat.min_eq_left few

theorem log_bytes (w : Write) (n : Nat) : (log w n).map Prod.snd = (uioData w.uio).take n := by
  rw [log,map_map]
  exact map_id _

theorem offered_idle (idle : v.directw = false) : v.offered = [] := if_neg (by rw [idle]; exact false_ne_true)

theorem Amid.ring (amid : Amid s t d got) (idle : s.directw = false) (ring : RingBuffer.Ring Byte) (ne : u ≠ t) :
    Knows { s.store with ring := ring } (s.pc u) := by
  have knows := amid.knows u ne
  have alone := amid.mid.alone u ne
  by_cases direct : (s.pc u).direct = true
  · have director := (amid.mid.dir u ne).mp direct
    subst director
    have inside : Inside s.core u (s.pc u) := amid.mid.here
    have alone : (s.pc u).holds = false := alone
    cases at_ : s.pc u with
    | directOffer w n =>
      rw [at_] at inside
      exact Bool.noConfusion (idle.symm.trans inside.2.2)
    | directDrain w n =>
      rw [at_] at inside
      exact Bool.noConfusion (idle.symm.trans inside.2.2.1)
    | directRelock w n error =>
      rw [at_] at knows
      exact knows.elim
    | _ =>
      rw [at_] at direct alone
      first | cases alone; done | cases direct
  · exact knows.outside alone (eq_false_iff.mpr direct)

theorem Amid.put {size segsize : Nat} (amid : Amid s t d []) (knows : Knows s.store (.writeCopied w size segsize)) :
    Amid { s with ring := s.ring.grow size segsize, sent := s.sent ++ log w size } t d [] where
  mid := amid.mid
  knows u ne := amid.ring knows.1 _ ne
  flow := by
    obtain ⟨idle,room,few,seg,-,copied⟩ := knows
    obtain ⟨wf,flow⟩ := amid.flow
    have length := take_length few
    have grown := grow_contents (r := s.ring) wf segsize copied
    rw [length] at grown
    refine ⟨wf.grow room seg,?_⟩
    show (s.sent ++ log w size).map Prod.snd = s.taken ++ (s.ring.grow size segsize).contents ++ if s.directw then _ else []
    rw [grown,map_append,flow,log_bytes,offered_idle idle,show s.directw = false from idle,if_neg Bool.false_ne_true]
    simp only [append_nil,append_assoc]
    rfl
  back := amid.back

-- Every step without a signal or a fault keeps the stream.
variable {s' : Pipe T}

section
variable (stream : Stream s h d)
include stream

theorem Stream.holder (at_ : s.pc t = q) (holds : q.holds = true) : h = some t :=
  stream.conf.holder_of ((congrArg Pc.holds at_).trans holds)

theorem Stream.others (at_ : s.pc t = q) (holds : q.holds = true) (direct : q.direct = true) (v : Store T) (ne : u ≠ t) :
    Knows v (s.pc u) := by
  have holder := stream.holder at_ holds
  obtain ⟨director,-⟩ := stream.conf.at_inside (t := t) at_ direct
  refine (stream.knows u).outside ?_ ?_
  · rw [← not_eq_true]
    intro other
    exact ne (Option.some.inj (((stream.conf.hold u).mp other).symm.trans holder))
  rw [← not_eq_true]
  intro other
  exact ne (Option.some.inj (((stream.conf.dir u).mp other).symm.trans director))
end

theorem Flow.idle {sent : List (Nat × Byte)} {taken : List Byte} (flow : Flow v sent taken) (idle : v.directw = false) (map : Mapping T)
    (window : Nat → Byte) : Flow { v with map := map, window := window } sent taken := by
  refine ⟨flow.1,?_⟩
  rw [flow.2,offered_idle idle]
  exact congrArg _ (offered_idle (v := { v with map := map, window := window }) idle).symm

theorem Inside.idle {c : Core T} (inside : Inside c t p) (holds : p.holds = true) : c.directw = false := by
  cases p with
  | directSetup | directLoan => exact inside.2.1
  | directPublish => exact inside.2.2.1
  | directCleanup => exact inside.2.2.1
  | directFinish => exact inside.2.1
  | directDrain | directOffer | directRelock => cases holds
  | _ => exact inside.elim

section
variable (stream : Stream s h d)
include stream

theorem Stream.inside (at_ : s.pc t = q) (map : Mapping T) (window : Nat → Byte) (copied : T → Nat)
    (holds : q.holds = true) (direct : q.direct = true) (conf : Conf ({ s with map := map, window := window, copied := copied }.goto t p).core (some t) (some t))
    (knows : Knows { s.store with map := map, window := window } p) (nothing : p.gotten = []) (was : q.gotten = []) :
    Stream ({ s with map := map, window := window, copied := copied }.goto t p) (some t) (some t) where
  conf := conf
  knows u := by
    by_cases here : u = t
    · rw [here,goto_self]
      exact knows
    rw [goto_other _ p here]
    exact stream.others at_ holds direct _ here
  flow := by
    obtain ⟨-,inside⟩ := stream.conf.at_inside (t := t) at_ direct
    exact stream.flow.idle (inside.idle holds) map window
  back := by
    have back := stream.back
    rw [stream.holder at_ holds,show gotten s (some t) = (s.pc t).gotten from rfl,at_,was] at back
    show s.taken = s.returned.flatten ++ (Pipe.pc _ t).gotten
    rw [goto_self,nothing]
    exact back

theorem Stream.leave (at_ : s.pc t = q) (holds : q.holds = true) (direct : q.direct = true) (was : q.gotten = [])
    (map : Mapping T) (clear : map.cnt = 0) (unread : s.directr = false) : Amid { s with map := map } t none [] where
  mid := by
    obtain ⟨-,inside⟩ := stream.conf.at_inside (t := t) at_ direct
    exact stream.conf.outside (t := t) ((congrArg Pc.direct at_).trans direct) ((congrArg Pc.holds at_).trans holds) map clear (inside.idle holds) unread
  knows u ne := stream.others at_ holds direct _ ne
  flow := by
    obtain ⟨-,inside⟩ := stream.conf.at_inside (t := t) at_ direct
    exact stream.flow.idle (inside.idle holds) map s.window
  back := by
    have back := stream.back
    rw [stream.holder at_ holds,show gotten s (some t) = (s.pc t).gotten from rfl,at_,was] at back
    exact back

end

theorem Inside.unread {c : Core T} (inside : Inside c t p) (holds : p.holds = true) : c.directr = false := by
  cases p with
  | directSetup | directLoan => exact inside.2.2
  | directPublish => exact inside.2.2.2
  | directCleanup => exact inside.2.2.2
  | directFinish => exact inside.2.2
  | directDrain | directOffer | directRelock => cases holds
  | _ => exact inside.elim

section
variable (stream : Stream s h d)
include stream

theorem Stream.drained (at_ : s.pc t = q) (reads : q.reads = some n) : s.ring.cnt = 0 := by
  obtain ⟨u,director,given,-⟩ := stream.conf.reading t n ((congrArg Pc.reads at_).trans reads)
  have given : (s.pc u).given = true := given
  have knows := stream.knows u
  cases at_ : s.pc u with
  | directOffer w m =>
    rw [at_] at knows
    exact knows.2.2.1
  | directRelock w m error =>
    rw [at_] at knows
    exact knows.elim
  | _ =>
    rw [at_] at given
    cases given

end
end NetbsdAvr32.Pipe

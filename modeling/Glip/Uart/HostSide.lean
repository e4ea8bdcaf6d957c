import Glip.Uart.TargetSide

/-! The bytes that the host has begun to send or to read, as parts of messages. -/
namespace Glip.Uart
open Foundation

/-- The ingress state machine has seen the begin of the messages `ms`, and the bytes
`bs` complete them. -/
def Mid (r : Ingress) (bs : List UInt8) (ms : List HostMessage) : Prop :=
  ∃ r₀ seen, r₀.state = .passthrough ∧ ingressBytes.after r₀ seen = r ∧
    seen ++ bs = ms.flatMap HostMessage.bytes

namespace Mid
variable {r : Ingress} {b b' : UInt8} {bs : List UInt8} {ms : List HostMessage} {t : Tranche}

theorem start (hr : r.state = .passthrough) (ms : List HostMessage) : Mid r (ms.flatMap HostMessage.bytes) ms :=
  ⟨r, [], hr, rfl, rfl⟩

private theorem decode (ms : List HostMessage) {r₀ : Ingress} (hr : r₀.state = .passthrough) :
    (ingressBytes.after r₀ (ms.flatMap HostMessage.bytes)).state = .passthrough ∧
      ingressBytes.emitted r₀ (ms.flatMap HostMessage.bytes) = ms.map HostMessage.event :=
  Transducer.decodes (P := fun r => r.state = .passthrough) decode_message ms r₀ hr

theorem finish (h : Mid r [] ms) : r.state = .passthrough := by
  obtain ⟨r₀, seen, hr, rfl, hseen⟩ := h
  rw [List.append_nil] at hseen
  rw [hseen]
  exact (decode ms hr).1

/-- A byte tells the target nothing but these messages. -/
theorem push (h : Mid r (b :: bs) ms) :
    Mid (ingressBytes.next r b) bs ms ∧ ∀ e ∈ ingressBytes.emit r b, e ∈ ms.map HostMessage.event := by
  obtain ⟨r₀, seen, hr, rfl, hseen⟩ := h
  constructor
  · exact ⟨r₀, seen ++ [b], hr, Transducer.after_append .., by simpa using hseen⟩
  · intro e he
    rw [← (decode ms hr).2, ← hseen, Transducer.emitted_append, Transducer.emitted_cons]
    exact List.mem_append_right _ (List.mem_append_left _ he)

private theorem emitted_begun (t : Tranche) {r₀ : Ingress} (hr : r₀.state = .passthrough) :
    ingressBytes.emitted r₀ [marker, creditFirst t.val] = [] := by
  obtain ⟨h0, h7⟩ := creditFirst_bits t
  obtain ⟨hn₁, he₁⟩ := passthrough_marker r₀ hr
  obtain ⟨-, he₂⟩ := match_credit { r₀ with state := .stMatch } _ rfl h0 h7
  simp [hn₁, he₁, he₂]

theorem credit_push (h : Mid r (b :: b' :: bs) [.credit t]) : ingressBytes.emit r b = [] := by
  obtain ⟨r₀, seen, hr, rfl, hseen⟩ := h
  have hbegun := emitted_begun t hr
  have hbytes : seen ++ b :: b' :: bs = [marker, creditFirst t.val, creditSecond t.val] := hseen
  have hsplit := List.append_eq_append_iff.mp
    (show (seen ++ [b]) ++ (b' :: bs) = [marker, creditFirst t.val] ++ [creditSecond t.val] by simpa using hbytes)
  obtain ⟨more, hmore⟩ : ∃ more, seen ++ b :: more = [marker, creditFirst t.val] := by
    rcases hsplit with ⟨more, hmore, -⟩ | ⟨more, hmore, hlast⟩
    · exact ⟨more, by simp [hmore]⟩
    · have hlen := congrArg List.length hlast
      simp only [List.length_append, List.length_cons, List.length_nil] at hlen
      obtain rfl : more = [] := List.length_eq_zero_iff.mp (by omega)
      exact ⟨[], by simpa using hmore⟩
  rw [← hmore, Transducer.emitted_append, Transducer.emitted_cons] at hbegun
  exact (List.append_eq_nil_iff.mp (List.append_eq_nil_iff.mp hbegun).2).1

theorem credit_last (h : Mid r [b] [.credit t]) : ingressBytes.emit r b = [.credit t.val] := by
  obtain ⟨r₀, seen, hr, rfl, hseen⟩ := h
  have hbytes : seen ++ [b] = [marker, creditFirst t.val] ++ [creditSecond t.val] := hseen
  obtain ⟨rfl, hb⟩ := List.append_inj' hbytes rfl
  have hall := (decode [.credit t] hr).2
  rw [← hseen, Transducer.emitted_append, emitted_begun t hr] at hall
  simpa [HostMessage.event] using hall

end Mid

namespace Pc

def holds : Pc → List UInt8
  | .debt got => got
  | .full got => marker :: got
  | .parse p | .credit (.wait p) | .grant (.wait p) _ _ => p.rest
  | _ => []

def toSend : Pc → List UInt8
  | .release bs | .resetLogic bs | .send bs _ | .grant _ _ bs => bs
  | _ => []

def opening : Pc → Bool
  | .release _ | .clear | .debt _ | .credit .reset | .grant .reset _ _ => true
  | _ => false

/-- The bytes that it is writing belong to these messages, of which the state machine in
state `r` has seen the begin. -/
def Sends (r : Ingress) : Pc → Prop
  | .release bs => Mid r bs [.comReset false]
  | .resetLogic bs => Mid r bs [.logicReset true, .logicReset false]
  | .send bs _ => ∃ ws : List UInt8, Mid r bs (ws.map .word)
  | .grant _ add bs => bs ≠ [] ∧ ∃ t : Tranche, t.val = add ∧ Mid r bs [.credit t]
  | _ => r.state = .passthrough

end Pc

def untrashed : List UInt8 → List UInt8
  | [] => []
  | b :: bs => if b = marker then b :: bs else bs

theorem untrashed_append {bs : List UInt8} (more : List UInt8)
    (h : untrashed bs ≠ [] ∨ more = [] ∨ ∃ more', more = marker :: more') :
    untrashed (bs ++ more) = untrashed bs ++ more := by
  cases bs with
  | cons b bs => by_cases hb : b = marker <;> simp [untrashed, hb]
  | nil =>
    rcases h with h | rfl | ⟨more', rfl⟩
    · exact absurd rfl h
    · rfl
    · simp [untrashed]

namespace Link
variable {s : Link} {inc : List UInt8}

/-- The bytes of the target that the host has not dealt with. -/
def incoming (s : Link) : List UInt8 :=
  if s.pc.opening then untrashed (s.pc.holds ++ s.up) else s.pc.holds ++ s.up

theorem emitted_push (s : Link) (b : UInt8) (pc : Pc) :
    ingressBytes.emitted s.target.ingress (s.push b pc).down =
      ingressBytes.emitted s.target.ingress s.down ++ ingressBytes.emit s.ahead b := by
  simp [push, Transducer.emitted_append, ahead]

theorem ahead_push (s : Link) (b : UInt8) (pc : Pc) : (s.push b pc).ahead = ingressBytes.next s.ahead b := by
  simp [push, Transducer.after_append, ahead]

end Link
end Glip.Uart

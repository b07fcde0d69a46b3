import Mathlib
import KirbLaSnoop.Listener.PeerTable
import KirbLaSnoop.Listener.Tcp

/-!
# How much a profile sends

The two summaries of a profile that `main` and the startup warning rely on,
against what the listeners send for one input.
-/

namespace KirbLaSnoop

open Effect

/-- The action never sends more than `n` bytes, whatever it is sent for. -/
def Action.Within (a : Action) (n : ℕ) : Prop :=
  a.isSilent = true ∨ a.echo = false ∧ a.dns = none ∧ a.payload.length ≤ n

theorem Action.build_of_fixed {a : Action} (hecho : a.echo = false) (hdns : a.dns = none)
    (reply : List UInt8 → Dns.Answer → Option (List UInt8)) (received : List UInt8) :
    a.build reply received = some a.payload := by
  simp [build, hecho, hdns]

namespace Compiled

/-- Bounds for the greeting and for the reply of a rule. -/
structure Within (p : Compiled) (banner rule : ℕ) : Prop where
  greeting : ∀ a, p.onConnect = some a → a.Within banner
  reply : ∀ r ∈ p.rules, r.action.Within rule

theorem within_of_not_responds {p : Compiled} (h : p.responds = false) : p.Within 0 0 := by
  rw [responds, Bool.or_eq_false_iff, List.any_eq_false] at h
  refine ⟨fun a ha => .inl (silent_onConnect ?_ ha), fun r hr => .inl ?_⟩
  · rw [responds, h.1, Bool.false_or, List.any_eq_false]
    exact h.2
  · simpa using h.2 r hr

theorem within_of_maxResponseBytes {p : Compiled} {n : ℕ} (h : p.maxResponseBytes = some n) :
    p.Within p.bannerBytes p.ruleBytes ∧ p.bannerBytes + p.ruleBytes = n := by
  obtain ⟨hbanner, hrules, rfl⟩ := maxResponseBytes_eq_some h
  refine ⟨⟨fun a ha => .inr ?_, fun r hr => .inr ?_⟩, rfl⟩
  · obtain ⟨hecho, hdns⟩ := hbanner a ha
    refine ⟨hecho, hdns, ?_⟩
    rw [bannerBytes, ha, Option.elim_some]
  · obtain ⟨hecho, hdns⟩ := hrules r hr
    exact ⟨hecho, hdns, length_payload_le hr⟩

theorem Within.eval {p : Compiled} {banner rule : ℕ} (h : p.Within banner rule)
    {data : List UInt8} {first : Bool} {name : String} {a : Action}
    (ha : p.eval data first = .ok (some (name, a))) : a.Within rule := by
  obtain ⟨r, hr, -, rfl⟩ := eval_mem ha
  exact h.reply r hr

end Compiled

variable {Addr : Type*}

/-! ## Udp -/

namespace Udp

variable (cfg : Config Addr)

theorem totalOut_reply_le {a : Action} {n : ℕ} (h : a.Within n) (dst : Addr)
    (received : List UInt8) (conn : ℕ) (trigger : Trigger) (outcome : Except String Unit) :
    totalOut (reply cfg dst a received conn trigger outcome) ≤ n := by
  rcases reply_cases cfg dst a received conn trigger outcome with
    hnone | ⟨e, herror⟩ | ⟨payload, hspeaks, hbuild, hsent⟩
  · rw [hnone]
    exact Nat.zero_le n
  · rw [herror]
    exact Nat.zero_le n
  · rcases h with hsilent | ⟨hecho, hdns, hlen⟩
    · cases hsilent.symm.trans hspeaks
    · rw [Action.build_of_fixed hecho hdns, Option.some.injEq] at hbuild
      rw [hsent, ← hbuild]
      simpa using hlen

variable {cfg} {p : Compiled} {banner rule : ℕ}

theorem totalOut_greeting_le (hp : cfg.profile = some p) (h : p.Within banner rule) (src : Addr)
    (conn : ℕ) (data : List UInt8) (first : Bool) (outcome : Except String Unit) :
    totalOut (greeting cfg src conn data first outcome) ≤ banner := by
  unfold greeting
  rw [hp, Option.bind_some]
  cases hc : p.onConnect with
  | none => exact Nat.zero_le banner
  | some a =>
      cases first with
      | true => exact totalOut_reply_le cfg (h.greeting a hc) src data conn _ outcome
      | false => exact Nat.zero_le banner

theorem totalOut_answer_le (hp : cfg.profile = some p) (h : p.Within banner rule) (src : Addr)
    (conn : ℕ) (data : List UInt8) (first : Bool) (outcome : Except String Unit) :
    totalOut (answer cfg src conn data first outcome) ≤ rule := by
  unfold answer
  split
  · next name a ha =>
      simp only [ruling, hp] at ha
      exact totalOut_reply_le cfg (h.eval ha) src data conn _ outcome
  · exact Nat.zero_le rule

variable [DecidableEq Addr]

theorem totalOut_turn_le (hp : cfg.profile = some p) (h : p.Within banner rule) {next : ℕ}
    {s : State Addr} {input : Input Addr} {out : Outcome (State Addr) Addr}
    (hturn : Turn cfg next s input out) : totalOut out.effects ≤ banner + rule := by
  have hretired : ∀ now order, totalOut (retired cfg now s order) = 0 := by
    intro now order
    apply List.sum_eq_zero
    intro n hn
    obtain ⟨e, he, rfl⟩ := List.mem_map.mp hn
    obtain ⟨src, q, -, -, -, rfl⟩ := (mem_retired cfg).mp he
    rfl
  cases hturn with
  | newPeer src data now b r hnew hroom =>
      have hb := totalOut_greeting_le hp h src next data true b
      have hr := totalOut_answer_le hp h src next data true r
      simp only [totalOut_cons, totalOut_append, bytesOut_call]
      omega
  | known src data now b r q hget =>
      have hr := totalOut_answer_le hp h src q.conn data false r
      simp only [totalOut_cons, bytesOut_call]
      omega
  | sweep now order => simp [hretired]
  | drained now order => simp [hretired]
  | _ => simp

theorem totalOut_run_le (hp : cfg.profile = some p) (h : p.Within banner rule) {l l' : Loop Addr}
    {acts : List (Act Addr)} {tr : List (List (Effect Addr))}
    (hrun : (lts cfg).run l acts = some (l', tr)) : ∀ es ∈ tr, totalOut es ≤ banner + rule := by
  refine (lts cfg).run_forall_mem (fun _ => True) _ trivial ?_ hrun
  intro u a v es _ hs
  refine ⟨trivial, ?_⟩
  rcases lts_cases cfg hs with ⟨input, out, -, -, hturn, -, rfl⟩ | ⟨n, -, -, rfl⟩
  · exact totalOut_turn_le hp h hturn
  · exact Nat.zero_le _

end Udp

/-! ## Tcp -/

namespace Tcp

variable (cfg : Config Addr) (conn : ℕ) (peer : Addr)

theorem totalOut_send_le {a : Action} {n : ℕ} (h : a.Within n) (received : List UInt8)
    (trigger : Trigger) (sending : Sending) :
    totalOut (send cfg conn peer a received trigger sending).1 ≤ n := by
  unfold send
  split
  · exact Nat.zero_le n
  · next hspeaks =>
      rcases h with hsilent | ⟨hecho, hdns, hlen⟩
      · exact absurd hsilent hspeaks
      · have hhangup : totalOut (if a.close then [.shutdown conn .tx] else [] :
            List (Effect Addr)) = 0 := by
          cases a.close <;> rfl
        rw [Action.build_of_fixed hecho hdns]
        dsimp only
        split
        · rw [hhangup]
          exact Nat.zero_le n
        · cases sending with
          | done => simpa [hhangup] using hlen
          | writeFailed written e =>
              simp only [totalOut_cons, bytesOut_sent, totalOut_nil, List.length_take]
              omega
          | flushFailed e => simpa using hlen

theorem totalOut_finish (outcome : Except String String) :
    totalOut (finish cfg conn peer outcome) = 0 := by
  cases outcome <;> rfl

theorem totalOut_proceed (next : Stage) (sent : List (Effect Addr) × Except String Bool) :
    totalOut (proceed cfg conn peer next sent).2 = totalOut sent.1 := by
  unfold proceed
  split
  · rw [totalOut_append, totalOut_finish, Nat.add_zero]
  · rfl
  · rw [totalOut_append, totalOut_finish, Nat.add_zero]

theorem proceed_ne_start {next : Stage} (h : next ≠ .start)
    (sent : List (Effect Addr) × Except String Bool) :
    (proceed cfg conn peer next sent).1 ≠ .start := by
  unfold proceed
  split
  · exact nofun
  · exact h
  · exact nofun

theorem totalOut_pump {dir : Dir} {state : Pump} {input : Input}
    {out : Pump × List (Effect Addr)} (h : pump cfg conn peer dir state input = some out) :
    totalOut out.2 = 0 := by
  unfold pump at h
  split at h
  · next dir' res =>
      cases h
      unfold pumpRead
      split <;> rfl
  · next rest dir' res =>
      unfold pumpWrite at h
      split at h
      · cases h
        rfl
      · split at h
        · cases h
          rfl
        · rw [Option.ite_none_right_eq_some] at h
          cases h.2
          rfl
  · cases h

theorem join_ne_start (rx tx : Pump) (effects : List (Effect Addr)) :
    (join cfg conn peer rx tx effects).1 ≠ .start := by
  unfold join
  split <;> exact nofun

theorem totalOut_join (rx tx : Pump) (effects : List (Effect Addr)) :
    totalOut (join cfg conn peer rx tx effects).2 = totalOut effects := by
  unfold join
  split
  · rw [totalOut_append, totalOut_finish, Nat.add_zero]
  · rfl

variable {cfg conn peer} {p : Compiled} {banner rule : ℕ}

theorem totalOut_greet_le (hp : cfg.profile = some p) (h : p.Within banner rule)
    (sending : Sending) : totalOut (greet cfg conn peer sending).2 ≤ banner := by
  unfold greet
  rw [hp, Option.bind_some]
  cases hc : p.onConnect with
  | none => exact Nat.zero_le banner
  | some a =>
      dsimp only
      rw [totalOut_proceed]
      exact totalOut_send_le cfg conn peer (h.greeting a hc) [] .onConnect sending

theorem greet_ne_start (sending : Sending) : (greet cfg conn peer sending).1 ≠ .start := by
  unfold greet
  split
  · exact nofun
  · exact proceed_ne_start cfg conn peer (by exact nofun) _

theorem totalOut_read_le (hp : cfg.profile = some p) (h : p.Within banner rule) (first : Bool)
    (res : Except String (List UInt8)) (sending : Sending) :
    totalOut (read cfg conn peer first res sending).2 ≤ rule := by
  unfold read
  split
  · exact (totalOut_finish cfg conn peer (.error _)).trans_le (Nat.zero_le rule)
  · exact (totalOut_finish cfg conn peer (.ok _)).trans_le (Nat.zero_le rule)
  · next data _ =>
      rw [hp]
      dsimp only
      split
      · exact Nat.zero_le rule
      · exact Nat.zero_le rule
      · next name a ha =>
          rw [totalOut_cons, bytesOut_call, Nat.zero_add, totalOut_proceed]
          exact totalOut_send_le cfg conn peer (h.eval ha) data (.rule name) sending

theorem read_ne_start (first : Bool) (res : Except String (List UInt8)) (sending : Sending) :
    (read cfg conn peer first res sending).1 ≠ .start := by
  unfold read
  split
  · exact nofun
  · exact nofun
  · split
    · exact nofun
    · split
      · exact nofun
      · exact nofun
      · exact proceed_ne_start cfg conn peer (by exact nofun) _

/-- The first step of a connection sends the greeting at most, every later
one a reply. -/
theorem totalOut_step_le (hp : cfg.profile = some p) (h : p.Within banner rule) {stage : Stage}
    {input : Input} {out : Stage × List (Effect Addr)}
    (hstep : Step cfg conn peer stage input out) :
    out.1 ≠ .start ∧ totalOut out.2 ≤ if stage = .start then banner else rule := by
  cases hstep with
  | greet sending hserve =>
      rw [if_pos rfl]
      exact ⟨greet_ne_start sending, totalOut_greet_le hp h sending⟩
  | connect up res hforward =>
      unfold connect
      split
      · exact ⟨nofun, Nat.zero_le _⟩
      · refine ⟨nofun, ?_⟩
        rw [totalOut_cons, totalOut_finish]
        exact Nat.zero_le _
  | read first res sending =>
      exact ⟨read_ne_start first res sending, totalOut_read_le hp h first res sending⟩
  | pumpRx rx tx input out hpump =>
      refine ⟨join_ne_start cfg conn peer _ _ _, ?_⟩
      rw [totalOut_join, totalOut_pump cfg conn peer hpump]
      exact Nat.zero_le _
  | pumpTx rx tx input out hpump =>
      refine ⟨join_ne_start cfg conn peer _ _ _, ?_⟩
      rw [totalOut_join, totalOut_pump cfg conn peer hpump]
      exact Nat.zero_le _

theorem totalOut_run_le (hp : cfg.profile = some p) (h : p.Within banner rule) {acts : List Input}
    {stage : Stage} {tr : List (List (Effect Addr))}
    (hrun : (lts cfg conn peer).run .start acts = some (stage, tr)) :
    totalOut (tr.take 2).flatten ≤ banner + rule ∧ ∀ es ∈ tr.tail, totalOut es ≤ rule := by
  cases acts with
  | nil =>
      cases hrun
      exact ⟨Nat.zero_le _, nofun⟩
  | cons a acts =>
      obtain ⟨u, es, os, hstep, hrest, rfl⟩ := (lts cfg conn peer).run_cons_eq_some.mp hrun
      obtain ⟨hu, hes⟩ := totalOut_step_le hp h (step_cases cfg conn peer hstep)
      have hos : ∀ es ∈ os, totalOut es ≤ rule := by
        refine (lts cfg conn peer).run_forall_mem (fun u => u ≠ .start) _ hu ?_ hrest
        intro u a v es hu hs
        obtain ⟨hv, hes⟩ := totalOut_step_le hp h (step_cases cfg conn peer hs)
        exact ⟨hv, by rwa [if_neg hu] at hes⟩
      dsimp only at hes
      rw [if_pos rfl] at hes
      refine ⟨?_, hos⟩
      cases os with
      | nil => simpa using hes.trans (Nat.le_add_right _ _)
      | cons reply os =>
          have hreply := hos reply List.mem_cons_self
          simp only [List.take_succ_cons, List.take_zero, List.flatten_cons, List.flatten_nil,
            List.append_nil, totalOut_append]
          omega

end Tcp

/-! ## The summaries -/

variable [DecidableEq Addr]

/-- A profile that is said not to respond sends nothing in any run, and one
with a bound keeps it for every datagram, for a greeting and the first reply
together, and for every later reply. -/
theorem summaries_hold (p : Compiled) :
    (p.responds = false →
      (∀ (cfg : Udp.Config Addr) first acts l tr, cfg.profile = some p →
        (Udp.lts cfg).run (.start first) acts = some (l, tr) → ∀ es ∈ tr, totalOut es = 0) ∧
      ∀ (cfg : Tcp.Config Addr) conn peer acts stage tr, cfg.profile = some p →
        (Tcp.lts cfg conn peer).run .start acts = some (stage, tr) → ∀ es ∈ tr, totalOut es = 0) ∧
    ∀ n, p.maxResponseBytes = some n →
      (∀ (cfg : Udp.Config Addr) first acts l tr, cfg.profile = some p →
        (Udp.lts cfg).run (.start first) acts = some (l, tr) → ∀ es ∈ tr, totalOut es ≤ n) ∧
      ∀ (cfg : Tcp.Config Addr) conn peer acts stage tr, cfg.profile = some p →
        (Tcp.lts cfg conn peer).run .start acts = some (stage, tr) →
          totalOut (tr.take 2).flatten ≤ n ∧ ∀ es ∈ tr.tail, totalOut es ≤ n := by
  constructor
  · intro hquiet
    have hwithin := Compiled.within_of_not_responds hquiet
    constructor
    · intro cfg first acts l tr hp hrun es hes
      exact Nat.le_zero.mp (Udp.totalOut_run_le hp hwithin hrun es hes)
    · intro cfg conn peer acts stage tr hp hrun es hes
      obtain ⟨htwo, htail⟩ := Tcp.totalOut_run_le hp hwithin hrun
      cases tr with
      | nil => cases hes
      | cons greeted rest =>
          rw [List.take_succ_cons, List.flatten_cons, totalOut_append] at htwo
          rcases List.mem_cons.mp hes with rfl | hes
          · omega
          · exact Nat.le_zero.mp (htail es hes)
  · intro n hn
    obtain ⟨hwithin, hsum⟩ := Compiled.within_of_maxResponseBytes hn
    constructor
    · intro cfg first acts l tr hp hrun es hes
      exact hsum ▸ Udp.totalOut_run_le hp hwithin hrun es hes
    · intro cfg conn peer acts stage tr hp hrun
      obtain ⟨htwo, htail⟩ := Tcp.totalOut_run_le hp hwithin hrun
      refine ⟨hsum ▸ htwo, fun es hes => (htail es hes).trans ?_⟩
      rw [← hsum]
      exact Nat.le_add_left _ _

/-- A greeting and a reply of fixed bytes, over both transports. -/
theorem summaries_hold_fixed :
    let p : Compiled :=
      ⟨"p", some ⟨[1, 2, 3], false, false, none⟩, [⟨"r", {}, ⟨[4, 5], false, false, none⟩⟩]⟩
    p.maxResponseBytes = some 5 ∧
      (∃ l tr, (Udp.lts (⟨"u", "l", true, some p, 1, 1, toString, id⟩ : Udp.Config ℕ)).run
          (.start 1) [.turn (.datagram 7 [0] 0 (.ok ()) (.ok ()))] = some (l, tr) ∧
        ∀ es ∈ tr, totalOut es ≤ 5) ∧
      ∃ stage tr, (Tcp.lts (⟨"t", "l", some p, none, toString⟩ : Tcp.Config ℕ) 1 7).run .start
          [.greet .done, .read (.ok [0]) .done] = some (stage, tr) ∧
        totalOut (tr.take 2).flatten ≤ 5 := by
  refine ⟨rfl, ⟨_, _, rfl, ?_⟩, ⟨_, _, rfl, ?_⟩⟩
  · exact ((summaries_hold _).2 5 rfl).1 (⟨"u", "l", true, some ⟨"p",
      some ⟨[1, 2, 3], false, false, none⟩, [⟨"r", {}, ⟨[4, 5], false, false, none⟩⟩]⟩, 1, 1,
        toString, id⟩ : Udp.Config ℕ) 1 [.turn (.datagram 7 [0] 0 (.ok ()) (.ok ()))] _ _ rfl rfl
  · exact (((summaries_hold _).2 5 rfl).2 (⟨"t", "l", some ⟨"p",
      some ⟨[1, 2, 3], false, false, none⟩, [⟨"r", {}, ⟨[4, 5], false, false, none⟩⟩]⟩, none,
        toString⟩ : Tcp.Config ℕ) 1 7 [.greet .done, .read (.ok [0]) .done] _ _ rfl rfl).1

end KirbLaSnoop

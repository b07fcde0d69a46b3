import Mathlib
import KirbLaSnoop.Listener.Reflection

/-!
# Replies without a bound

A profile that echoes or answers dns has no bound for its replies. They are
said to mirror the size of the request; here is when they do not exceed it.
-/

namespace KirbLaSnoop

open Effect

variable {Addr : Type*}

/-- What an action has to say to a datagram: nothing, the datagram itself, or
so many bytes whatever the size of the datagram. -/
inductive Speech where
  | nothing
  | mirror
  | sized (n : ℕ)
  deriving DecidableEq

def Speech.bytes (len : ℕ) : Speech → ℕ
  | .nothing => 0
  | .mirror => len
  | .sized n => n

/-- A dns reply is the query up to the end of its question, and the record. -/
def Action.speech (a : Action) (data : List UInt8) : Speech :=
  if a.isSilent then .nothing
  else if a.echo then if data.isEmpty then .nothing else .mirror
  else
    match a.dns with
    | none => .sized a.payload.length
    | some ans =>
        match Dns.parse data with
        | none => .nothing
        | some q => .sized (q.question.2 + Dns.recordLen q ans)

/-- A greeting and a reply that are no longer than the datagram: at most one
of them speaks and is an echo or short enough, or there is no echo and there
is room for both. -/
def Fits (len : ℕ) : Speech → Speech → Prop
  | .nothing, .nothing => True
  | .nothing, .mirror => True
  | .mirror, .nothing => True
  | .nothing, .sized n => n ≤ len
  | .sized n, .nothing => n ≤ len
  | .sized m, .sized n => m + n ≤ len
  | .mirror, _ => False
  | _, .mirror => False

/-- What the profile says to a datagram on its own account, and by the rule
that matches. -/
def Compiled.bannerSpeech (p : Compiled) (data : List UInt8) (first : Bool) : Speech :=
  match p.onConnect with
  | none => .nothing
  | some a => if first then a.speech data else .nothing

def Compiled.ruleSpeech (p : Compiled) (data : List UInt8) (first : Bool) : Speech :=
  match p.eval data first with
  | .ok (some (_, a)) => a.speech data
  | _ => .nothing

def Speech.Audible (len : ℕ) : Speech → Prop
  | .nothing => True
  | .mirror => 0 < len
  | .sized n => 0 < n

theorem fits_iff {len : ℕ} {banner rule : Speech} (hb : banner.Audible len)
    (hr : rule.Audible len) :
    Fits len banner rule ↔ banner.bytes len + rule.bytes len ≤ len := by
  cases banner <;> cases rule <;> simp [Fits, Speech.bytes, Speech.Audible] at * <;> omega

theorem Action.speech_audible (a : Action) (data : List UInt8) :
    (a.speech data).Audible data.length := by
  unfold speech
  split
  · trivial
  · next hspeaks =>
      split
      · split
        · trivial
        · next hdata => simpa [Speech.Audible, List.length_pos_iff] using hdata
      · next hecho =>
          split
          · next hdns =>
              simpa [isSilent, hecho, hdns, Speech.Audible, List.length_pos_iff] using hspeaks
          · split
            · trivial
            · next q hq => exact Nat.add_pos_left (Nat.zero_lt_of_lt (Dns.parse_question hq).2.1) _

theorem Action.bytes_speech {a : Action} (hspeaks : a.isSilent = false) (data : List UInt8) :
    (a.speech data).bytes data.length = (a.build Dns.reply data).elim 0 List.length := by
  unfold speech build
  rw [if_neg (Bool.eq_false_iff.mp hspeaks)]
  split
  · cases data <;> rfl
  · cases a.dns with
    | none => rfl
    | some ans =>
        cases hq : Dns.parse data with
        | none => simp [Dns.reply_of_parse_none hq, Speech.bytes]
        | some q =>
            obtain ⟨out, hout, hlen⟩ := Dns.reply_of_parse hq ans
            simp [hout, hlen, Speech.bytes]

theorem Compiled.bannerSpeech_audible (p : Compiled) (data : List UInt8) (first : Bool) :
    (p.bannerSpeech data first).Audible data.length := by
  unfold bannerSpeech
  split
  · trivial
  · split
    · exact Action.speech_audible _ data
    · trivial

theorem Compiled.ruleSpeech_audible (p : Compiled) (data : List UInt8) (first : Bool) :
    (p.ruleSpeech data first).Audible data.length := by
  unfold ruleSpeech
  split
  · exact Action.speech_audible _ data
  · trivial

namespace Udp

variable (cfg : Config Addr)

theorem totalOut_reply (dst : Addr) (a : Action) (received : List UInt8) (conn : ℕ)
    (trigger : Trigger) :
    totalOut (reply cfg dst a received conn trigger (.ok ())) =
      (a.speech received).bytes received.length := by
  unfold reply
  split
  · next hsilent => rw [Action.speech, if_pos hsilent, Speech.bytes, totalOut_nil]
  · next hspeaks =>
      rw [Action.bytes_speech (Bool.eq_false_iff.mpr hspeaks)]
      cases hbuild : a.build Dns.reply received with
      | none => rfl
      | some payload => cases payload <;> simp

theorem totalOut_reply_le_speech (dst : Addr) (a : Action) (received : List UInt8) (conn : ℕ)
    (trigger : Trigger) (outcome : Except String Unit) :
    totalOut (reply cfg dst a received conn trigger outcome) ≤
      (a.speech received).bytes received.length := by
  cases outcome with
  | ok u => exact (totalOut_reply cfg dst a received conn trigger).le
  | error e =>
      have hnothing : totalOut (reply cfg dst a received conn trigger (.error e)) = 0 := by
        unfold reply
        split
        · rfl
        · split
          · rfl
          · split <;> rfl
      exact hnothing.trans_le (Nat.zero_le _)

variable {cfg} {p : Compiled}

theorem totalOut_greeting (hp : cfg.profile = some p) (src : Addr) (conn : ℕ) (data : List UInt8)
    (first : Bool) (outcome : Except String Unit) :
    totalOut (greeting cfg src conn data first outcome) ≤
        (p.bannerSpeech data first).bytes data.length ∧
      (outcome = .ok () → totalOut (greeting cfg src conn data first outcome) =
        (p.bannerSpeech data first).bytes data.length) := by
  unfold greeting Compiled.bannerSpeech
  rw [hp, Option.bind_some]
  cases p.onConnect with
  | none => exact ⟨le_rfl, fun _ => rfl⟩
  | some a =>
      cases first with
      | false => exact ⟨le_rfl, fun _ => rfl⟩
      | true =>
          refine ⟨totalOut_reply_le_speech cfg src a data conn .onConnect outcome, ?_⟩
          rintro rfl
          exact totalOut_reply cfg src a data conn .onConnect

theorem totalOut_answer (hp : cfg.profile = some p) (src : Addr) (conn : ℕ) (data : List UInt8)
    (first : Bool) (outcome : Except String Unit) :
    totalOut (answer cfg src conn data first outcome) ≤
        (p.ruleSpeech data first).bytes data.length ∧
      (outcome = .ok () → totalOut (answer cfg src conn data first outcome) =
        (p.ruleSpeech data first).bytes data.length) := by
  have hruling : ruling cfg data first = p.eval data first := by
    simp only [ruling, hp]
  unfold answer Compiled.ruleSpeech
  rw [hruling]
  rcases p.eval data first with e | (_ | ⟨name, a⟩)
  · exact ⟨le_rfl, fun _ => rfl⟩
  · exact ⟨le_rfl, fun _ => rfl⟩
  · refine ⟨totalOut_reply_le_speech cfg src a data conn (.rule name) outcome, ?_⟩
    rintro rfl
    exact totalOut_reply cfg src a data conn (.rule name)

variable [DecidableEq Addr]

/-- The replies to a datagram of a tracked source are no longer than it,
however sending turns out, exactly if greeting and rule fit. -/
theorem replies_fit_iff (hp : cfg.profile = some p) (next : ℕ) (s : State Addr) (src : Addr)
    (htracked : (s.peers.get src).isSome ∨ s.peers.size < cfg.maxPeers) (data : List UInt8)
    (now : ℕ) :
    (∀ banner rule, totalOut (datagram cfg next s src data now banner rule).effects ≤
        data.length) ↔
      Fits data.length (p.bannerSpeech data (s.peers.get src).isNone)
        (p.ruleSpeech data (s.peers.get src).isNone) := by
  have htotal : ∀ banner rule, totalOut (datagram cfg next s src data now banner rule).effects =
      totalOut (greeting cfg src ((s.peers.get src).elim next Peer.conn) data
          (s.peers.get src).isNone banner) +
        totalOut (answer cfg src ((s.peers.get src).elim next Peer.conn) data
          (s.peers.get src).isNone rule) := by
    intro banner rule
    have hroom : ((s.peers.get src).isNone && isFull cfg s) = false := by
      rcases htracked with hknown | hroom
      · simp [Option.isNone_eq_false_iff.mpr hknown]
      · simp [isFull, hroom]
    unfold datagram
    rw [hroom, if_neg Bool.false_ne_true, tracked]
    dsimp only
    cases (s.peers.get src).isNone <;> simp
  rw [fits_iff (p.bannerSpeech_audible data _) (p.ruleSpeech_audible data _)]
  constructor
  · intro h
    have hok := h (.ok ()) (.ok ())
    rw [htotal, (totalOut_greeting hp src _ data _ (.ok ())).2 rfl,
      (totalOut_answer hp src _ data _ (.ok ())).2 rfl] at hok
    exact hok
  · intro h banner rule
    rw [htotal]
    exact (Nat.add_le_add (totalOut_greeting hp src _ data _ banner).1
      (totalOut_answer hp src _ data _ rule).1).trans h

theorem replies_fit_iff_echo :
    let p : Compiled := ⟨"p", none, [⟨"r", {}, ⟨[], true, false, none⟩⟩]⟩
    let cfg : Config ℕ := ⟨"u", "l", true, some p, 1, 1, toString, id⟩
    ∀ banner rule, totalOut (datagram cfg 1 .new 7 [1, 2] 0 banner rule).effects ≤ 2 :=
  (@replies_fit_iff ℕ
    ⟨"u", "l", true, some ⟨"p", none, [⟨"r", {}, ⟨[], true, false, none⟩⟩]⟩, 1, 1, toString, id⟩
    _ _ rfl 1 .new 7 (.inr Nat.one_pos) [1, 2] 0).mpr trivial

/-- A dns answer to a query without padding is longer than the query. -/
theorem replies_not_fit :
    ¬ ∀ (cfg : Config ℕ) (p : Compiled), cfg.profile = some p → p.maxResponseBytes = none →
      ∀ (next : ℕ) (s : State ℕ) (src : ℕ),
        ((s.peers.get src).isSome ∨ s.peers.size < cfg.maxPeers) →
          ∀ (data : List UInt8) (now : ℕ) (banner rule : Except String Unit),
            totalOut (datagram cfg next s src data now banner rule).effects ≤ data.length := by
  intro h
  have hreply := h ⟨"u", "l", true, some ⟨"p", none, [⟨"r", {}, ⟨[], false, false,
      some ⟨some #v[192, 0, 2, 1], none, 60⟩⟩⟩]⟩, 1, 1, toString, id⟩ _ rfl rfl 1 .new 7
    (.inr (by decide)) [0x12, 0x34, 1, 0, 0, 1, 0, 0, 0, 0, 0, 0, 1, 97, 0, 0, 1, 0, 1] 0
    (.ok ()) (.ok ())
  revert hreply
  decide +kernel

end Udp

end KirbLaSnoop

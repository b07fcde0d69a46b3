import Mathlib
import KirbLaSnoop.Profile.NoPanic
import KirbLaSnoop.Profile.Weaken

/-!
# Hex that nothing can match

Compiling parses the hex of the responses and copies that of the matchers,
which is parsed again for every message. A matcher whose hex does not parse
holds for no message, and the profile that has it loads like any other.
-/

namespace KirbLaSnoop

/-- A matcher with hex that does not parse is dead. -/
theorem Match.dead {m : Match} (h : ¬m.HexParses) (data : List UInt8) (first : Bool) :
    m.matchesData data first ≠ .ok true := by
  rw [ne_eq, matchesData_eq_true_iff]
  exact fun hholds => h hholds.hexParses

/-! ## When a response compiles -/

/-- What a response needs in order to compile: its text unescapes, its hex
parses, its file can be read, its payload fits into a vector as often as it is
repeated, and its addresses are addresses. -/
structure Respond.Sound (L : Loader) (r : Respond) : Prop where
  text : ∀ t, r.text = some t → ∃ bs, unescape t = .ok bs
  hex : ∀ h, r.hex = some h → ∃ bs, parseHex h = .ok bs
  file : ∀ p, r.file = some p → ∃ bs, L.read (Respond.resolveFile L.base p) = some bs
  repeats : ∀ text hex file n, r.textBytes = .ok text → r.hexBytes = .ok hex →
    r.fileBytes L = .ok file → r.repeats = some n → (text ++ hex ++ file).length * n ≤ isizeMax
  dnsA : ∀ d s, r.dns = some d → d.a = some s → ∃ ip, L.parseV4 s = some ip
  dnsAaaa : ∀ d s, r.dns = some d → d.aaaa = some s → ∃ ip, L.parseV6 s = some ip

namespace Respond

variable {L : Loader} {r : Respond}

theorem textBytes_ok_iff :
    (∃ text, r.textBytes = .ok text) ↔ ∀ t, r.text = some t → ∃ bs, unescape t = .ok bs := by
  unfold textBytes
  cases r.text with
  | none => simp
  | some t =>
      simp only [Option.some.injEq, forall_eq']
      cases unescape t with
      | ok bs => simp [Except.mapError]
      | error e => simp [Except.mapError]

theorem hexBytes_ok_iff :
    (∃ hex, r.hexBytes = .ok hex) ↔ ∀ h, r.hex = some h → ∃ bs, parseHex h = .ok bs := by
  unfold hexBytes
  cases r.hex with
  | none => simp
  | some h =>
      simp only [Option.some.injEq, forall_eq']
      split
      · next bs hbs => simp [hbs]
      · next hodd => simp [hodd]
      · next hbad => simp [hbad]
      · next p hp => simp [hp]

theorem fileBytes_ok_iff :
    (∃ file, r.fileBytes L = .ok file) ↔
      ∀ p, r.file = some p → ∃ bs, L.read (resolveFile L.base p) = some bs := by
  unfold fileBytes
  cases r.file with
  | none => simp
  | some p =>
      simp only [Option.some.injEq, forall_eq']
      cases L.read (resolveFile L.base p) <;> simp

theorem repeated_ok_iff {payload : List UInt8} :
    (∃ bs, r.repeated payload = .ok bs) ↔
      ∀ n, r.repeats = some n → payload.length * n ≤ isizeMax := by
  unfold repeated repeatBytes
  cases r.repeats with
  | none => simp
  | some n =>
      simp only [Option.some.injEq, forall_eq']
      split_ifs with h <;> simp [h]

end Respond

theorem parseAddr_ok_iff {α : Type} {parse : String → Option α} {e : String → LoadError}
    {o : Option String} :
    (∃ ip, parseAddr parse e o = .ok ip) ↔ ∀ s, o = some s → ∃ ip, parse s = some ip := by
  unfold parseAddr
  cases o with
  | none => simp
  | some s =>
      simp only [Option.some.injEq, forall_eq']
      cases parse s <;> simp

theorem compileDns_ok_iff {L : Loader} {dns : Option DnsRespond} :
    (∃ a, compileDns L dns = .ok a) ↔
      (∀ d s, dns = some d → d.a = some s → ∃ ip, L.parseV4 s = some ip) ∧
        ∀ d s, dns = some d → d.aaaa = some s → ∃ ip, L.parseV6 s = some ip := by
  cases dns with
  | none => simp [compileDns]
  | some d =>
      have ha := @parseAddr_ok_iff _ L.parseV4 .dnsA d.a
      have haaaa := @parseAddr_ok_iff _ L.parseV6 .dnsAaaa d.aaaa
      simp only [compileDns, bind_eq_ok, Option.some.injEq]
      constructor
      · rintro ⟨_, ip, hip, ip6, hip6, -⟩
        refine ⟨?_, ?_⟩
        · rintro _ s rfl
          exact ha.mp ⟨ip, hip⟩ s
        · rintro _ s rfl
          exact haaaa.mp ⟨ip6, hip6⟩ s
      · rintro ⟨hv4, hv6⟩
        obtain ⟨ip, hip⟩ := ha.mpr fun s => hv4 d s rfl
        obtain ⟨ip6, hip6⟩ := haaaa.mpr fun s => hv6 d s rfl
        exact ⟨_, ip, hip, ip6, hip6, rfl⟩

theorem Respond.compiles_iff {L : Loader} {r : Respond} : r.Compiles L ↔ r.Sound L := by
  simp only [Compiles, compileRespond, bind_eq_ok]
  constructor
  · rintro ⟨_, text, htext, hex, hhex, file, hfile, payload, hpayload, dns, hdns, -⟩
    obtain ⟨hv4, hv6⟩ := compileDns_ok_iff.mp ⟨dns, hdns⟩
    refine ⟨textBytes_ok_iff.mp ⟨text, htext⟩, hexBytes_ok_iff.mp ⟨hex, hhex⟩,
      fileBytes_ok_iff.mp ⟨file, hfile⟩, ?_, hv4, hv6⟩
    intro text' hex' file' n htext' hhex' hfile' hn
    cases htext.symm.trans htext'
    cases hhex.symm.trans hhex'
    cases hfile.symm.trans hfile'
    exact repeated_ok_iff.mp ⟨payload, hpayload⟩ n hn
  · intro h
    obtain ⟨text, htext⟩ := textBytes_ok_iff.mpr h.text
    obtain ⟨hex, hhex⟩ := hexBytes_ok_iff.mpr h.hex
    obtain ⟨file, hfile⟩ := fileBytes_ok_iff.mpr h.file
    obtain ⟨payload, hpayload⟩ := repeated_ok_iff.mpr fun n hn =>
      h.repeats text hex file n htext hhex hfile hn
    obtain ⟨dns, hdns⟩ := compileDns_ok_iff.mpr ⟨h.dnsA, h.dnsAaaa⟩
    exact ⟨_, text, htext, hex, hhex, file, hfile, payload, hpayload, dns, hdns, rfl⟩

/-! ## What loading rejects -/

def Respond.HexParses (r : Respond) : Prop := ∀ h, r.hex = some h → ∃ bs, parseHex h = .ok bs

/-- Every hex text of the profile parses, in matchers and in responses. -/
def Profile.HexParses (p : Profile) : Prop :=
  (∀ r ∈ p.rules, r.matcher.HexParses) ∧ ∀ r ∈ p.responds, r.HexParses

theorem load_ok_iff_sound {L : Loader} {p : Profile} :
    (∃ c, load L p = .ok c) ↔ ∀ r ∈ p.responds, r.Sound L := by
  rw [load_ok_iff]
  exact forall₂_congr fun _ _ => Respond.compiles_iff

/-- Loading reports an error when a response does not compile, unless one
before it panics. -/
theorem load_error_iff {L : Loader} {p : Profile} :
    (∃ e, load L p = .error (.error e)) ↔
      SafeInTurn L p.responds ∧ ∃ r ∈ p.responds, ¬r.Sound L := by
  have hok := @load_ok_iff_sound L p
  have hpanics := panics_load L p
  unfold Panics at hpanics
  cases hload : load L p with
  | ok c =>
      rw [hload] at hok
      refine iff_of_false (by simp) ?_
      rintro ⟨-, r, hr, hunsound⟩
      exact hunsound (hok.mp ⟨c, rfl⟩ r hr)
  | error e =>
      rw [hload] at hok hpanics
      have hunsound : ∃ r ∈ p.responds, ¬r.Sound L := by
        by_contra hall
        push Not at hall
        obtain ⟨c, hc⟩ := hok.mpr hall
        cases hc
      cases e with
      | error e =>
          refine iff_of_true ⟨e, rfl⟩ ⟨?_, hunsound⟩
          by_contra hunsafe
          obtain ⟨_, hp⟩ := hpanics.mpr hunsafe
          cases hp
      | panic q =>
          refine iff_of_false (by simp) ?_
          rintro ⟨hsafe, -⟩
          exact hpanics.mp ⟨q, rfl⟩ hsafe

/-- A profile that loads has no hex that does not parse if and only if its
matchers have none or a response keeps it from loading; and hex that does not
parse is reported as an error if and only if there is none or a response is
reported, which `load_error_iff` says of every profile. -/
theorem load_rejects_hex_iff (L : Loader) (p : Profile) :
    ((∀ c, load L p = .ok c → p.HexParses) ↔
      (∀ r ∈ p.rules, r.matcher.HexParses) ∨ ∃ r ∈ p.responds, ¬r.Sound L) ∧
    ((¬p.HexParses → ∃ e, load L p = .error (.error e)) ↔
      p.HexParses ∨ (SafeInTurn L p.responds ∧ ∃ r ∈ p.responds, ¬r.Sound L)) := by
  refine ⟨?_, ?_⟩
  · constructor
    · intro h
      by_cases hsound : ∀ r ∈ p.responds, r.Sound L
      · obtain ⟨c, hc⟩ := load_ok_iff_sound.mpr hsound
        exact .inl (h c hc).1
      · push Not at hsound
        exact .inr hsound
    · rintro (hmatchers | ⟨r, hr, hunsound⟩) c hc
      · exact ⟨hmatchers, fun r hr => (load_ok_iff_sound.mp ⟨c, hc⟩ r hr).hex⟩
      · exact absurd (load_ok_iff_sound.mp ⟨c, hc⟩ r hr) hunsound
  · have herror := @load_error_iff L p
    constructor
    · intro h
      by_cases hparses : p.HexParses
      · exact .inl hparses
      · exact .inr (herror.mp (h hparses))
    · rintro (hparses | hrejected) hno
      · exact absurd hparses hno
      · exact herror.mpr hrejected

/-- One rule whose prefix is no hex. The profile loads. -/
theorem not_load_rejects_hex :
    ¬∀ (L : Loader) (p : Profile) (c : Compiled), load L p = .ok c → p.HexParses := by
  intro hall
  have hparses := hall ⟨"", fun _ => none, fun _ => none, fun _ => none⟩
    ⟨"dead", none, [⟨none, { prefixHex := some "zz" }, none⟩]⟩ _ rfl
  obtain ⟨v, hv⟩ := (hparses.1 _ List.mem_cons_self).1 "zz" rfl
  have hbad : parseHex "zz" = .error .badByte := by decide +kernel
  rw [hbad] at hv
  cases hv

end KirbLaSnoop

import Mathlib
import KirbLaSnoop.Listener.Spoken
import KirbLaSnoop.Startup

/-!
# From the command line to the wire

The listeners that come up are those of the plan. So what leaves for a peer is
what the file means that was named for its listener.
-/

namespace KirbLaSnoop

open Effect

/-- What a listener has when it is bound, and how addresses and strings are
shown. -/
structure Bound (Addr : Type*) where
  localAddr : String
  loopback : Bool
  display : Addr → String
  debug : String → String

/-- A listener that came up. -/
def Started.listener {Addr : Type*} (cli : Cli) (s : Started) (b : Bound Addr) : Listener Addr :=
  match s.proto with
  | .tcp =>
      .tcp
        { name := s.name
          localAddr := b.localAddr
          profile := s.profile
          upstream := s.upstream
          display := b.display }
  | .udp =>
      .udp
        { name := s.name
          localAddr := b.localAddr
          loopback := b.loopback
          profile := s.profile
          idleSecs := cli.udpIdle
          maxPeers := cli.udpMaxPeers
          display := b.display
          debug := b.debug }

theorem Started.profile_listener {Addr : Type*} (cli : Cli) (s : Started) (b : Bound Addr) :
    (s.listener cli b).profile = s.profile := by
  unfold listener
  split <;> rfl

/-- The profile that is named for a listener, as it is in its file. -/
def sourceOf (sys : System) (cli : Cli) (l : Config.Listener) : Option (Loader × Profile) :=
  (profileSpec cli l).bind fun spec =>
    ((resolve sys spec (resolveProfileDir sys cli.profileDir)).bind fun path =>
      (sys.profile path).mapError .profile).toOption

variable {sys : System} {cli : Cli}

theorem load_of_loadFile {path : String} {c : Compiled} (h : loadFile sys path = .ok c) :
    ∃ L p, sys.profile path = .ok (L, p) ∧ load L p = .ok c := by
  unfold loadFile at h
  cases hfile : sys.profile path with
  | error e =>
      rw [hfile] at h
      cases h
  | ok file =>
      rw [hfile] at h
      refine ⟨file.1, file.2, rfl, ?_⟩
      cases hload : load file.1 file.2 with
      | error e => simp [hload, Except.mapError] at h
      | ok c' => simpa [hload, Except.mapError] using h

theorem loads_of_cached {profiles : Table String Compiled}
    (hcached : Cached sys (resolveProfileDir sys cli.profileDir) profiles) {l : Config.Listener}
    (hcovers : ∀ spec, profileSpec cli l = some spec → (profiles.get spec).isSome) :
    Loads (sourceOf sys cli l) ((profileSpec cli l).bind profiles.get) := by
  unfold sourceOf
  cases hspec : profileSpec cli l with
  | none => exact .none
  | some spec =>
      obtain ⟨c, hc⟩ := Option.isSome_iff_exists.mp (hcovers spec hspec)
      have hfetch := hcached spec c hc
      unfold fetch at hfetch
      rw [Option.bind_some, Option.bind_some, hc]
      cases hpath : resolve sys spec (resolveProfileDir sys cli.profileDir) with
      | error e =>
          rw [hpath] at hfetch
          cases hfetch
      | ok path =>
          rw [hpath] at hfetch
          obtain ⟨L, p, hfile, hload⟩ := load_of_loadFile hfetch
          change Loads ((sys.profile path).mapError StartError.profile).toOption (some c)
          rw [hfile]
          exact Option.rel_some_some.mpr hload

/-- Each of the listeners is started with the profile that its source is
compiled to. -/
theorem loads_startAll {profiles : Table String Compiled} {ls : List Config.Listener}
    (hcached : Cached sys (resolveProfileDir sys cli.profileDir) profiles)
    (hcovers : Covers cli profiles ls) (i : ℕ) {j : ℕ} {s : Started}
    (hs : (startAll cli profiles i ls)[j]? = some s) :
    ∃ l, ls[j]? = some l ∧ s = startListener cli (i + j) l s.profile ∧
      Loads (sourceOf sys cli l) s.profile := by
  induction ls generalizing i j with
  | nil => cases hs
  | cons l ls ih =>
      obtain ⟨hl, hls⟩ := List.forall_mem_cons.mp hcovers
      cases j with
      | zero =>
          obtain rfl := Option.some.inj hs
          exact ⟨l, rfl, rfl, loads_of_cached hcached hl⟩
      | succ j =>
          have hshift : i + (j + 1) = i + 1 + j := by omega
          rw [hshift]
          exact ih hls (i + 1) hs

namespace Process

variable {ι Addr : Type*} [DecidableEq ι] [DecidableEq Addr] {dp : Deps}

/-- Whatever the command line and the files, and whatever comes from the
network: what a listener of the plan sends to a peer is what the profile that
is named for it means, by its own spec or by default, to the last message of
that peer. -/
theorem cli_to_wire (sys : System) (cli : Cli) (pl : Plan) (hplan : plan sys cli = .ok pl)
    (net : ι → Listener Addr) (which : ι → ℕ)
    (hnet : ∀ i, ∃ s b, pl.started[which i]? = some s ∧ net i = s.listener cli b)
    (acts : List (Act ι Addr)) (p : Process ι Addr) (tr : List (List (Seen ι Addr)))
    (h : (lts net dp pl.options).run (start net) acts = some (p, tr)) :
    ∃ ls, gatherListeners sys cli = .ok ls ∧
      ∀ id i w, (id, i, w) ∈ grants tr.flatten → ∃ l profile b, ls[which i]? = some l ∧
        net i = (startListener cli (which i) l profile).listener cli b ∧
        ∀ before dst conn trigger bytes later,
          about id (happened tr.flatten) = before ++ .sent dst conn trigger bytes :: later →
            (w = .connection dst ∨ w = .peer dst) ∧
              ∃ payload, (Profile.voice (sourceOf sys cli l)).Due (net i) before trigger payload ∧
                bytes <+: payload ∧ ((∀ a ∈ acts, ¬a.Fails id) → bytes = payload) := by
  obtain ⟨ls, profiles, hls, hextends, heq⟩ := plan_eq_ok hplan
  refine ⟨ls, hls, ?_⟩
  have hlisteners : ∀ i, ∃ l profile b, ls[which i]? = some l ∧
      net i = (startListener cli (which i) l profile).listener cli b ∧
        Loads (sourceOf sys cli l) (net i).profile := by
    intro i
    obtain ⟨s, b, hs, hlistener⟩ := hnet i
    rw [heq] at hs
    obtain ⟨l, hl, hstart, hloads⟩ := loads_startAll hextends.cached hextends.covers 0 hs
    rw [Nat.zero_add] at hstart
    refine ⟨l, s.profile, b, hl, hstart ▸ hlistener, ?_⟩
    rw [hlistener, Started.profile_listener]
    exact hloads
  choose l profile b hl hlistener hloads using hlisteners
  intro id i w hw
  refine ⟨l i, profile i, b i, hl i, hlistener i, fun before dst conn trigger bytes later hsent => ?_⟩
  exact due_of_run hloads h hw hsent

/-- A config file with one listener, which is named after the file of its
profile. -/
def echoListener : Config.Listener := ⟨.udp, "127.0.0.1:9", some "echo.toml", some "u", none, none⟩

def echoSystem : System where
  isDir := fun _ => false
  isFile := fun _ => true
  env := fun _ => none
  config := fun _ => .ok [echoListener]
  profile := fun _ => .ok (⟨"", fun _ => none, fun _ => none, fun _ => none⟩,
    ⟨"echo", none, [⟨some "all", { any := some true }, some { echo := true }⟩]⟩)

def echoCli : Cli :=
  { config := some "kls.toml", noJsonl := true, jsonlMaxData := 0, maxRunBytes := 0, udpIdle := 1,
    udpMaxPeers := 1 }

theorem cli_to_wire_echo :
    ∃ pl p tr before later, plan echoSystem echoCli = .ok pl ∧
      (lts echoUdp .bare pl.options).run (start echoUdp) echoed = some (p, tr) ∧
        about 1 (happened tr.flatten) = before ++ .sent 7 1 (.rule "all") [1, 2] :: later ∧
          (Profile.voice (sourceOf echoSystem echoCli echoListener)).Due (echoUdp ()) before
            (.rule "all") [1, 2] := by
  obtain ⟨p, tr, before, later, hrun, hgrants, habout⟩ := echoed_run
  have hplan : ∃ pl, plan echoSystem echoCli = .ok pl ∧ pl.options = .rawOnly ⟨0, 0⟩ 0 ∧
      ∃ s, pl.started[0]? = some s ∧
        echoUdp () = s.listener echoCli ⟨"l", true, toString, id⟩ :=
    ⟨_, rfl, rfl, _, rfl, rfl⟩
  obtain ⟨pl, hplan, hoptions, s, hs, hlistener⟩ := hplan
  rw [← hoptions] at hrun
  obtain ⟨ls, hls, hall⟩ := cli_to_wire echoSystem echoCli pl hplan echoUdp (fun _ => 0)
    (fun _ => ⟨s, _, hs, hlistener⟩) echoed p tr hrun
  obtain rfl : [echoListener] = ls := Except.ok.inj hls
  obtain ⟨l, profile, b, hl, -, hsent⟩ := hall 1 () (.peer 7) (hgrants ▸ List.mem_cons_self)
  obtain rfl := Option.some.inj hl
  obtain ⟨-, payload, hdue, -, hwhole⟩ := hsent before 7 1 (.rule "all") [1, 2] later habout
  exact ⟨pl, p, tr, before, later, hplan, hrun, habout, hwhole not_fails_echoed ▸ hdue⟩

end Process

end KirbLaSnoop

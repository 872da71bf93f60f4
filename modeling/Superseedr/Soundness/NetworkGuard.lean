import Superseedr.Model.RssGuard

/-! # What the network guard keeps away

The guard looks at addresses as they are written. An address of version 4 that is written as version 6 passes, and the
client connects to whatever its own lookups and the redirects lead to.
-/

namespace Superseedr

/-- Loopback, private, link-local, multicast and unspecified addresses. -/
def isInternal : IpAddr → Bool
  | .v4 ip => leading4 8 ip = 10 || leading4 12 ip = 0xAC1 || leading4 16 ip = 0xC0A8 || leading4 16 ip = 0xA9FE ||
      leading4 8 ip = 127 || ip = 0 || leading4 4 ip = 0xE
  | .v6 ip => ipv6IsLocal ip || leading6 8 ip = 0xFF

theorem not_isInternal_of_safe {ip : IpAddr} (safe : ipIsSafe ip = true) : isInternal ip = false := by
  cases ip with
  | v4 ip =>
    simp only [ipIsSafe, ipv4IsExempt, Bool.not_eq_true', Bool.or_eq_false_iff] at safe
    simp only [isInternal, Bool.or_eq_false_iff]
    tauto
  | v6 ip => simpa [ipIsSafe, isInternal] using safe

/-- The guard keeps internal addresses away exactly if none of those it checks is written as version 6, and the lookups
of the client lead to those that were checked. -/
theorem rss_guard_safe_iff (resolver : Resolver) (client : HttpClient) (url : Url)
    (accepted : isSafeRssItemUrl resolver (some url) = true) :
    (∀ ip ∈ addressesOf resolver 0 url, isInternal (normalizeIp ip) = false) ∧
      (∀ ip ∈ fetchTorrentBytes resolver client (some url),
        ip ∈ addressesOf resolver 0 url ∧ isInternal (normalizeIp ip) = false) ↔
    (∀ ip ∈ addressesOf resolver 0 url, normalizeIp ip ≠ ip → isInternal (normalizeIp ip) = false) ∧
      ∀ hop ∈ client url, addressesOf resolver hop.1 hop.2 ⊆ addressesOf resolver 0 url := by
  have plain : ∀ ip ∈ addressesOf resolver 0 url, normalizeIp ip = ip → isInternal (normalizeIp ip) = false := by
    intro ip member same
    simp only [isSafeRssItemUrl, Bool.and_eq_true, List.all_eq_true] at accepted
    rw [same]
    exact not_isInternal_of_safe (accepted.2 ip member)
  have fetched (ip : IpAddr) : ip ∈ fetchTorrentBytes resolver client (some url) ↔
      ∃ hop ∈ client url, ip ∈ addressesOf resolver hop.1 hop.2 := by
    simp only [fetchTorrentBytes, accepted, List.mem_flatMap]
  constructor
  · rintro ⟨checked, connected⟩
    refine ⟨fun ip member _ => checked ip member, fun hop among ip member => ?_⟩
    exact (connected ip ((fetched ip).mpr ⟨hop, among, member⟩)).1
  · rintro ⟨mapped, within⟩
    have checked (ip : IpAddr) (member : ip ∈ addressesOf resolver 0 url) : isInternal (normalizeIp ip) = false := by
      by_cases same : normalizeIp ip = ip
      · exact plain ip member same
      · exact mapped ip member same
    refine ⟨checked, fun ip member => ?_⟩
    obtain ⟨hop, among, member⟩ := (fetched ip).mp member
    exact ⟨within hop among member, checked ip (within hop among member)⟩

def linkTo (host : UrlHost) : Url := ⟨"http", "", none, some host, 80⟩

theorem rss_guard_safe_public :
    isSafeRssItemUrl (fun _ _ _ => none) (some (linkTo (.ip (.v4 0x08080808)))) = true ∧
    ∀ ip ∈ fetchTorrentBytes (fun _ _ _ => none) (fun url => [(1, url)]) (some (linkTo (.ip (.v4 0x08080808)))),
      ip ∈ addressesOf (fun _ _ _ => none) 0 (linkTo (.ip (.v4 0x08080808))) ∧ isInternal (normalizeIp ip) = false := by
  have accepted : isSafeRssItemUrl (fun _ _ _ => none) (some (linkTo (.ip (.v4 0x08080808)))) = true := by
    decide +kernel
  exact ⟨accepted, ((rss_guard_safe_iff (fun _ _ _ => none) (fun url => [(1, url)]) (linkTo (.ip (.v4 0x08080808)))
    accepted).mpr ⟨by decide +kernel, by decide +kernel⟩).2⟩

/-- The loopback address passes as version 6, and so does a name that resolves to it later. -/
theorem guard_passes_loopback :
    isSafeRssItemUrl (fun _ _ _ => none) (some (linkTo (.ip (.v6 0xFFFF7F000001)))) = true ∧
      isInternal (normalizeIp (.v6 0xFFFF7F000001)) = true ∧
    fetchTorrentBytes (fun lookup _ _ => if lookup = 0 then some [.v4 0x08080808] else some [.v4 0x7F000001])
      (fun url => [(1, url)]) (some (linkTo (.domain "a"))) = [.v4 0x7F000001] := by
  decide +kernel

end Superseedr

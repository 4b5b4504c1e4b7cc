import Lepton.Base64
import Lepton.HttpServer
import Lepton.WsSegments
import Lepton.WsServer

/-! The opening handshake. The client sends a key made of sixteen random bytes, and computes the accept value that it
expects from the key that it sends; a server computes it from the key that it reads. SHA-1 is OpenSSL's: all that is said
here holds of any hash with digests of twenty bytes. -/

namespace Lepton

namespace Security

open Words Http

/-- What a function that returns a length has left at `out`. -/
def written (result : Nat × List UInt8) : List UInt8 := result.2.take result.1

end Security

namespace Ws

open Search Http Security

/-! ### The server -/

/-- The verdict on a block that switches protocols. -/
theorem accepted_iff {block expected : List UInt8} (hblock : Block block) (hswitch : SwitchLine ((lines block).headD [])) :
    (validateWsUpgrade block expected).accepted = true ↔ acceptValue (lines block).tail = some expected := by
  have hverdict := hblock.accepted_iff [] expected
  have hshows := hblock.shows hswitch []
  rw [List.append_nil] at hverdict hshows
  rw [hverdict]
  exact ⟨fun h => h.2.2, fun haccept => ⟨hswitch.name, hshows, haccept⟩⟩

theorem Block.upgrade {block expected : List UInt8} (hblock : Block block)
    (haccepted : (validateWsUpgrade block expected).accepted = true) : UpgradeBlock expected block := by
  have hvalidate := hblock.validate [] expected
  rw [List.append_nil] at hvalidate
  refine ⟨by rw [hvalidate], by rw [hvalidate], ?_⟩
  rw [haccepted, Bool.true_or]

section Prepared

variable {sha1 : List UInt8 → Vector UInt8 20} {nonce : Vector UInt8 16} {cfg : Config}

end Prepared

end Ws

end Lepton

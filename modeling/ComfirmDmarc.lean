import ComfirmDmarc.Queue.Crash
import ComfirmDmarc.Queue.Mapping
import ComfirmDmarc.Queue.Semaphore
import ComfirmDmarc.Queue.Creation
import ComfirmDmarc.MailHandler.Loop
import ComfirmDmarc.MailHandler.Resources
import ComfirmDmarc.Server.Segmentation
import ComfirmDmarc.Server.EdgeTriggered
import ComfirmDmarc.Server.SlotOwnership
import ComfirmDmarc.Server.RoundTrip
import ComfirmDmarc.Server.DataPhase
import ComfirmDmarc.Server.CommandLines
import ComfirmDmarc.Server.Sending
import ComfirmDmarc.Dkim.Unfolding
import ComfirmDmarc.Dkim.QueuedMail
import ComfirmDmarc.Dkim.MissingTags
import ComfirmDmarc.Dkim.BodyCanon
import ComfirmDmarc.Dkim.HeaderCopies
import ComfirmDmarc.Dkim.Selection
import ComfirmDmarc.Dkim.Agreement
import ComfirmDmarc.Dkim.VerifierBounds
import ComfirmDmarc.MailHandler.HeaderCase
import ComfirmDmarc.MailHandler.KeyRecovery
import ComfirmDmarc.MailHandler.Leftovers
import ComfirmDmarc.MailHandler.LeafTexts
import ComfirmDmarc.MailHandler.Escaping
import ComfirmDmarc.MailHandler.BufferMemory
import ComfirmDmarc.MailHandler.Unzip
import ComfirmDmarc.Server.ConfigLines
import ComfirmDmarc.Dkim.SignerBounds
import ComfirmDmarc.MailHandler.JsonObject
import ComfirmDmarc.Server.ProcessRuns
import ComfirmDmarc.Server.ClientSession
import ComfirmDmarc.MailHandler.OwnSignature
import ComfirmDmarc.MailHandler.HonestMail
import ComfirmDmarc.MailHandler.Transit
import ComfirmDmarc.EndToEnd
import ComfirmDmarc.ServedReport
import ComfirmDmarc.Server.Cache

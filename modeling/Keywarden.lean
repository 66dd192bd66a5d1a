import Keywarden.DefaultTemplate
import Keywarden.AccessRun
import Keywarden.AccessAdmin
import Keywarden.AccessAlone
import Keywarden.AccessSerial
import Keywarden.AccessRepair
import Keywarden.AgentRevocation
import Keywarden.AgentRename
import Keywarden.KeyRun
import Keywarden.Shell
import Keywarden.EnrollmentRun
import Keywarden.LogDelivery
import Keywarden.LogOutage
import Keywarden.LogOrder
import Keywarden.LogCatchUp
import Keywarden.LogStart
import Keywarden.UserCa
import Keywarden.AuthorizedKeys
import Keywarden.AuthorityRevocation
import Keywarden.AuthorityAgreement
import Keywarden.ErasureAdmin
import Keywarden.ErasureRun
import Keywarden.AuditRecord
import Keywarden.AgentCrash
import Keywarden.AccountReports
import Keywarden.Escalation
import Keywarden.CertificatePrincipal
import Keywarden.CertificateAuthority
import Keywarden.LogRejection
import Keywarden.CursorCrash
import Keywarden.SpoolCrash
import Keywarden.ErasureTraces
import Keywarden.AuditSuggestions
import Keywarden.RoleAgreement
import Keywarden.UserErrors
import Keywarden.KeyErrors
import Keywarden.DirectGrants
import Keywarden.AgentAuthorities
import Keywarden.ForeignAccounts
import Keywarden.CatalogCache
import Keywarden.UsernameAgreement
import Keywarden.LoginMessages
import Keywarden.LogResume
import Keywarden.SshdConfig
import Keywarden.Heartbeat
import Keywarden.ReportErrors
import Keywarden.ClientAddress
import Keywarden.AccessExpiry
import Keywarden.CanonicalPath
import Keywarden.ServerStatus
import Keywarden.PublicKeyFile
import Keywarden.FirstRevocation
import Keywarden.ShellFiles
import Keywarden.ShellRelay
import Keywarden.SyncOrder
import Keywarden.Listings
import Keywarden.EndToEnd
import Keywarden.StateText
import Keywarden.Bootstrap

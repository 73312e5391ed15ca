import Messasy.Filter.Dispose
import Messasy.Filter.Search
import Messasy.Milter.Pass
import Messasy.Milter.Content
import Messasy.Milter.Decision
import Messasy.Milter.Recipient
import Messasy.Config.Lifetime
import Messasy.Config.Interleave
import Messasy.Mail.Mailbox
import Messasy.Mail.Bounds
import Messasy.Milter.Validity
import Messasy.Module.Usable
import Messasy.Module.Report
import Messasy.Module.PrivList
import Messasy.Module.Maildrop
import Messasy.Module.Zip
import Messasy.Module.Delivery
import Messasy.Module.LdaArgument
import Messasy.Module.Levels
import Messasy.Module.Tempfile
import Messasy.Client.Counter
import Messasy.Client.Login
import Messasy.Client.Framing
import Messasy.Client.Grammar
import Messasy.Config.LoadModule
import Messasy.Config.Reload
import Messasy.Config.Number
import Messasy.Config.ModuleLine
import Messasy.Client.Password
import Messasy.Milter.AllOrNothing
import Messasy.Milter.Independent
import Messasy.Module.Tree
import Messasy.Module.Mailaddr
import Messasy.Module.Execv
import Messasy.Utils.Strset
import Messasy.Server.Isolation
import Messasy.Server.Authority
import Messasy.Client.Limit
import Messasy.Server.Archive
import Messasy.Mail.Base64
import Messasy.Mail.QuotedPrintable
import Messasy.Mail.AddressList
import Messasy.Utils.Str2code
import Messasy.Mail.MimeEncode
import Messasy.Config.Order
import Messasy.Server.Configured
